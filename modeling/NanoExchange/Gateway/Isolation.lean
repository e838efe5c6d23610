import NanoExchange.Gateway.Exchange

/-!
# Clients are kept apart

What the client of one connection can do to the orders of another, and which
responses it gets to see.  Everything is decided by client ids: a request
carries the id of the socket it has come from, its token is looked up under
that id, an order is found under the id and the order id, and a response is
sent to the socket of its id.  So clients are kept apart as long as no two
connections have got the same id.

`Owned` says which connections the client ids belong to.
-/

namespace NanoExchange

open Lib

namespace OrderServer

variable {L : OuchLayout} {env : Surroundings} {s s' : OrderServer}

/-- The tables of sockets after a call of `onRecv`. -/
theorem recv_sockets
    (hfits : s.fifo.Fits) {fd : Nat} {bytes : List UInt8} {kernelTime : Nat}
    (hs' : s.step L env (.recv fd bytes kernelTime) = .ok s') :
    s'.fdToClientId = (s.withClient fd).fdToClientId ∧
      s'.clientToSocket = (s.withClient fd).clientToSocket ∧
      s'.nextClientId = (s.withClient fd).nextClientId := by
  have harrive := (arrive_sameRequests s fd bytes).fifo ▸ hfits
  obtain ⟨t, ht, -, hsame⟩ := foldlM_onMessage_decodes (L := L)
    env (s.clientOf fd) harrive kernelTime
    (Framing.frames L.ouchMsgSize (s.inbound fd ++ bytes)).1
  rw [recv_eq, ht, ok_bind] at hs'
  obtain rfl := Except.ok.inj hs'
  rw [arrive_eq] at hsame
  exact ⟨hsame.fdToClientId, hsame.clientToSocket, hsame.nextClientId⟩

/-- The tables of sockets after a disconnect. -/
theorem onDisconnect_sockets (s : OrderServer) (fd : Nat) :
    (s.onDisconnect fd).fdToClientId =
        Function.update s.fdToClientId fd none ∧
      (s.onDisconnect fd).nextClientId = s.nextClientId ∧
      ∀ c fd', (s.onDisconnect fd).clientToSocket c = some fd' →
        s.clientToSocket c = some fd' ∧ s.fdToClientId fd ≠ some c := by
  unfold onDisconnect
  cases hfd : s.fdToClientId fd with
  | none =>
      refine ⟨?_, rfl, fun c fd' hc => ⟨hc, nofun⟩⟩
      exact (hfd ▸ Function.update_eq_self fd s.fdToClientId).symm
  | some cid =>
      refine ⟨rfl, rfl, fun c fd' hc => ?_⟩
      dsimp only at hc
      by_cases hcid : c = cid
      · subst hcid
        simp at hc
      · rw [Function.update_of_ne hcid] at hc
        exact ⟨hc, fun h => hcid (Option.some.inj h).symm⟩

end OrderServer

namespace Exchange

variable {P : Type} [ObjectPool P] {n : Nat} {L : OuchLayout}
  {R : OuchReplies} {env : Surroundings} {e e' : Exchange P}

/-- A connection has got the client id `c`. -/
def GotId (registered : List Connection) (conn : Connection) (c : ClientId) :
    Prop :=
  ∃ k : Nat, registered[k]? = some conn ∧ c = (k + 1) % wordSize

theorem GotId.concat
    {registered : List Connection} {conn : Connection} {c : ClientId}
    (h : GotId registered conn c) (conn' : Connection) :
    GotId (registered ++ [conn']) conn c := by
  obtain ⟨k, hk, hc⟩ := h
  refine ⟨k, ?_, hc⟩
  rw [List.getElem?_append_left (List.getElem?_eq_some_iff.mp hk).1]
  exact hk

/-- As long as the counter has not come round, a client id belongs to one
connection. -/
theorem GotId.unique
    {registered : List Connection} (hcount : registered.length ≤ wordSize)
    {conn conn' : Connection} {c : ClientId} (h : GotId registered conn c)
    (h' : GotId registered conn' c) : conn = conn' := by
  obtain ⟨k, hk, hc⟩ := h
  obtain ⟨k', hk', hc'⟩ := h'
  have hlt := (List.getElem?_eq_some_iff.mp hk).1
  have hlt' := (List.getElem?_eq_some_iff.mp hk').1
  have hmod : (k + 1) % wordSize = (k' + 1) % wordSize := hc.symm.trans hc'
  obtain rfl : k = k' := by
    unfold wordSize at hmod hcount
    omega
  exact Option.some.inj (hk.symm.trans hk')

/-- **Whom the client ids belong to.** -/
structure Owned (e : Exchange P) : Prop where
  next : e.server.nextClientId = (e.registered.length + 1) % wordSize
  live : ∀ fd c, e.server.fdToClientId fd = some c →
    GotId e.registered (e.connection fd) c
  socket : ∀ c fd, e.server.clientToSocket c = some fd →
    e.server.fdToClientId fd = some c
  sent : ∀ conn x, (conn, x) ∈ e.arrived →
    GotId e.registered conn x.request.clientId
  received : ∀ conn y, (conn, y) ∈ e.staged →
    GotId e.registered conn y.clientId

/-- The exchange after the check at the beginning of `onRecv`. -/
def connect (e : Exchange P) (fd : Nat) : Exchange P :=
  { e with
    server := e.server.withClient fd
    registered :=
      if e.server.fdToClientId fd = none then
        e.registered ++ [e.connection fd]
      else e.registered }

namespace Owned

theorem init (n poolSize fifoPending tokenPoolSz : Nat) :
    Owned (Exchange.init n poolSize fifoPending tokenPoolSz :
      Exchange P) where
  next := rfl
  live := nofun
  socket := nofun
  sent := nofun
  received := nofun

omit [ObjectPool P] in
theorem connect (h : Owned e) (fd : Nat) : Owned (e.connect fd) := by
  by_cases hnone : e.server.fdToClientId fd = none
  · have hwith : e.server.withClient fd = e.server.registerClient fd :=
      if_pos hnone
    have hgot : GotId (e.registered ++ [e.connection fd])
        (e.connection fd) e.server.nextClientId := by
      refine ⟨e.registered.length, ?_, h.next⟩
      rw [List.getElem?_append_right le_rfl, Nat.sub_self]
      rfl
    unfold Exchange.connect
    rw [hwith, if_pos hnone]
    refine ⟨?_, ?_, ?_, fun conn x hx => (h.sent conn x hx).concat _,
      fun conn y hy => (h.received conn y hy).concat _⟩
    · show (e.server.nextClientId + 1) % wordSize = _
      rw [h.next, Nat.mod_add_mod, List.length_append]
      rfl
    · intro fd' c hfd'
      have hfd' : Function.update e.server.fdToClientId fd
          (some e.server.nextClientId) fd' = some c := hfd'
      by_cases heq : fd' = fd
      · subst heq
        rw [Function.update_self] at hfd'
        exact Option.some.inj hfd' ▸ hgot
      · rw [Function.update_of_ne heq] at hfd'
        exact (h.live fd' c hfd').concat _
    · intro c fd' hc
      have hc : Function.update e.server.clientToSocket
          e.server.nextClientId (some fd) c = some fd' := hc
      show Function.update e.server.fdToClientId fd
        (some e.server.nextClientId) fd' = some c
      by_cases hnew : c = e.server.nextClientId
      · subst hnew
        rw [Function.update_self] at hc
        rw [Option.some.inj hc, Function.update_self]
      · rw [Function.update_of_ne hnew] at hc
        have hold := h.socket c fd' hc
        have hne : fd' ≠ fd := by
          rintro rfl
          cases hnone.symm.trans hold
        rw [Function.update_of_ne hne]
        exact hold
  · have hwith : e.server.withClient fd = e.server := if_neg hnone
    unfold Exchange.connect
    rw [hwith, if_neg hnone]
    exact h

theorem onRecv
    (h : Owned e) (hinv : Inv n e) {fd : Nat} {bytes : List UInt8}
    {kernelTime : Nat} (he' : e.onRecv L env fd bytes kernelTime = .ok e') :
    Owned e' := by
  have h₁ := h.connect fd
  have hgot : GotId (e.connect fd).registered (e.connection fd)
      (e.server.clientOf fd) :=
    h₁.live fd _ (e.server.withClient_eq fd).1
  obtain ⟨s, hs, rfl⟩ := onRecv_ok he'
  obtain ⟨-, G, hdecoded, hclient⟩ := hinv.works.recv hs
  obtain ⟨hfds, hsockets, hnext⟩ :=
    OrderServer.recv_sockets hinv.works.fits hs
  refine ⟨hnext.trans h₁.next, ?_, ?_, ?_, h₁.received⟩
  · intro fd' c hfd'
    dsimp only at hfd'
    rw [hfds] at hfd'
    exact h₁.live fd' c hfd'
  · intro c fd' hc
    dsimp only at hc ⊢
    rw [hsockets] at hc
    rw [hfds]
    exact h₁.socket c fd' hc
  · intro conn x hx
    dsimp only at hx
    rcases List.mem_append.mp hx with hx | hx
    · exact h₁.sent conn x hx
    · rw [hdecoded, List.drop_left] at hx
      obtain ⟨x', hx', heq⟩ := List.mem_map.mp hx
      obtain ⟨rfl, rfl⟩ := Prod.mk.inj heq
      rw [hclient x' hx']
      exact hgot

omit [ObjectPool P] in
theorem onDisconnect (h : Owned e) (fd : Nat) : Owned (e.onDisconnect fd) := by
  obtain ⟨hfds, hnext, hsockets⟩ :=
    OrderServer.onDisconnect_sockets e.server fd
  refine ⟨hnext.trans h.next, ?_, ?_, h.sent, h.received⟩
  · intro fd' c hfd'
    have hfd' : (e.server.onDisconnect fd).fdToClientId fd' = some c := hfd'
    rw [hfds] at hfd'
    have hne : fd' ≠ fd := by
      rintro rfl
      rw [Function.update_self] at hfd'
      cases hfd'
    rw [Function.update_of_ne hne] at hfd'
    have hconn : (e.onDisconnect fd).connection fd' = e.connection fd' := by
      simp [connection, Exchange.onDisconnect, hne]
    rw [hconn]
    exact h.live fd' c hfd'
  · intro c fd' hc
    obtain ⟨hold, hother⟩ := hsockets c fd' hc
    have hfd' := h.socket c fd' hold
    have hne : fd' ≠ fd := by
      rintro rfl
      exact hother hfd'
    show (e.server.onDisconnect fd).fdToClientId fd' = some c
    rw [hfds, Function.update_of_ne hne]
    exact hfd'

theorem process (h : Owned e) (he' : e.process = .ok e') : Owned e' := by
  rcases process_cases he' with ⟨-, rfl⟩ | ⟨x, q, engine, responses, -, -, -, rfl⟩
  · exact h
  · exact ⟨h.next, h.live, h.socket, h.sent, h.received⟩

omit [ObjectPool P] in
theorem drain
    (h : Owned e) (clock : Nat → Nat) : Owned (e.drainResponses R clock) := by
  obtain ⟨outbound, more, heq, hmore⟩ :=
    deliverAll_eq (R := R) clock 0 e.responseQ e
  unfold drainResponses
  rw [heq]
  refine ⟨h.next, h.live, h.socket, h.sent, fun conn y hy => ?_⟩
  rcases List.mem_append.mp hy with hy | hy
  · exact h.received conn y hy
  · obtain ⟨-, fd, hfd, rfl⟩ := hmore conn y hy
    exact h.live fd _ (h.socket _ fd hfd)

/-- **Every step keeps the owners.** -/
theorem step
    (h : Owned e) (hinv : Inv n e) {i : ExchangeInput}
    (he' : e.step L R env i = .ok e') : Owned e' := by
  cases i with
  | recv fd bytes kernelTime => exact h.onRecv hinv he'
  | publish =>
      obtain rfl := Except.ok.inj he'
      exact ⟨h.next, h.live, h.socket, h.sent, h.received⟩
  | disconnect fd =>
      obtain rfl := Except.ok.inj he'
      exact h.onDisconnect fd
  | process => exact h.process he'
  | drain clock =>
      obtain rfl := Except.ok.inj he'
      exact h.drain clock

end Owned

theorem run_inv
    {books poolSize fifoPending tokenPoolSz : Nat}
    {inputs : List ExchangeInput}
    (he : run L R env P books poolSize fifoPending tokenPoolSz inputs =
      .ok e) : Inv books e ∧ Owned e := by
  induction inputs using List.reverseRecOn generalizing e with
  | nil =>
      obtain rfl := Except.ok.inj he
      exact ⟨.init books poolSize fifoPending tokenPoolSz,
        .init books poolSize fifoPending tokenPoolSz⟩
  | append_singleton inputs i ih =>
      obtain ⟨e₀, he₀, hlast⟩ := foldlM_append_ok he
      have hstep : e₀.step L R env i = .ok e := by
        simpa using hlast
      obtain ⟨hinv, howned⟩ := ih he₀
      exact ⟨hinv.step hstep, howned.step hinv hstep⟩

/-- The order has come with a NEW or MODIFY message on the connection. -/
def CameOn (e : Exchange P) (conn : Connection) (o : OrderInfo) : Prop :=
  ∃ z, (conn, z) ∈ e.arrived ∧ z.request.newIdentity = some o.identity

/-- A trade accounts for what has become of an order of book `t`: its client is
told, and what the trade has left of it rests. -/
def Traded (e : Exchange P) (responses : List MEClientResponse)
    (t : TickerId) (o : OrderInfo) : Prop :=
  ∃ y ∈ responses, y.status = .executed ∧ y.identity = o.identity ∧
    o.remainingQuantity = y.leavesQty + y.executedQty ∧
    (y.leavesQty = 0 ∨ e.desk.Resting t (o.withRemaining y.leavesQty))

/-- What a request does to a resting order: a trade accounts for it, or the
request has the client of the order. -/
theorem Inv.touches
    (h : Inv n e) {x : RecvClientRequest} {q : List RecvClientRequest}
    (hq : e.server.requestQ = x :: q) (he' : e.process = .ok e')
    {t : TickerId} {o : OrderInfo} (ho : e.desk.Resting t o)
    (hgone : ¬ e'.desk.Resting t o) :
    e'.Traded ((e.desk.market.respond x.request).events.flatMap
        (Event.responses Dialect.map)) t o ∨
      o.clientId = x.request.clientId := by
  obtain ⟨-, hworks, -, -, -, hmarket, -⟩ := h.take hq he'
  have htied : Desk.Tied n e.desk := h.works.tied
  have htied' : Desk.Tied n e'.desk := hworks.tied
  obtain ⟨ht, hmem⟩ := htied.resting_iff.mp ho
  rw [htied'.resting_iff, hmarket] at hgone
  have hgone := fun hmem' => hgone ⟨ht, hmem'⟩
  by_cases hticker : t = x.request.tickerId
  · subst hticker
    rw [Market.next_ladder_self] at hgone
    rcases Ladder.step_touches _ x.request hmem hgone with
      ⟨a, left, fill, remaining, matchId, hevent, hqty, hleft⟩ | ⟨-, hkey⟩
    · left
      refine ⟨_, List.mem_flatMap.mpr ⟨_, hevent, List.mem_cons_self⟩, rfl,
        rfl, hqty, hleft.imp_right fun hleft => ?_⟩
      rw [htied'.resting_iff, hmarket, Market.next_ladder_self]
      exact ⟨ht, hleft⟩
    · exact .inr (Prod.ext_iff.mp hkey).1
  · rw [Market.next_ladder_of_ne _ hticker] at hgone
    exact absurd hmem hgone

end Exchange

/-- **Clients cannot touch each other's orders or get each other's responses**,
in every run in which at most `2^64` connections have got a client id.  If the
engine takes a request, it has arrived on some connection, and an order that
the request reduces or removes, other than by a trade, has come on that same
connection.  A response that is staged on a socket concerns a request that has
arrived on the connection of the socket, or the order of one. -/
theorem clients_kept_apart
    (L : OuchLayout) (R : OuchReplies) (env : Surroundings) (P : Type)
    [ObjectPool P] (books poolSize fifoPending tokenPoolSz : Nat)
    {inputs : List ExchangeInput} {e : Exchange P}
    (he : Exchange.run L R env P books poolSize fifoPending tokenPoolSz
      inputs = .ok e)
    (hcount : e.registered.length ≤ wordSize) :
    (∀ x q e', e.server.requestQ = x :: q →
      e.step L R env .process = .ok e' →
      (∃ conn, (conn, x) ∈ e.arrived) ∧
      ∃ responses, e'.responseQ = e.responseQ ++ responses ∧
        ∀ t o, e.desk.Resting t o → ¬ e'.desk.Resting t o →
          e'.Traded responses t o ∨ o.clientId = x.request.clientId ∧
            ∀ conn, (conn, x) ∈ e.arrived → e.CameOn conn o) ∧
    ∀ conn y, (conn, y) ∈ e.staged →
      ∃ x, (conn, x) ∈ e.arrived ∧ x.request.Concerns y := by
  obtain ⟨hinv, howned⟩ := Exchange.run_inv he
  -- a client id leads to one connection
  have hsame : ∀ conn x conn' c, (conn, x) ∈ e.arrived →
      x.request.clientId = c → Exchange.GotId e.registered conn' c →
      conn = conn' := by
    rintro conn x conn' c hx rfl hgot
    exact Exchange.GotId.unique hcount (howned.sent conn x hx) hgot
  refine ⟨fun x q e' hq he' => ?_, fun conn y hy => ?_⟩
  · obtain ⟨hx, -, -, -, -, -, hresponses⟩ := hinv.take hq he'
    refine ⟨hinv.arrived hx, _, hresponses, fun t o ho hgone => ?_⟩
    refine (hinv.touches hq he' ho hgone).imp_right fun hclient => ?_
    refine ⟨hclient, fun conn hconn => ?_⟩
    have htied : Desk.Tied books e.desk := hinv.works.tied
    obtain ⟨z, hz, hnew⟩ := hinv.created t o (htied.resting_iff.mp ho).2
    obtain ⟨conn', hconn'⟩ := hinv.arrived hz
    have howner : z.request.clientId = x.request.clientId := by
      rw [← (MEClientRequest.newKey_of_newIdentity hnew).2.2]
      exact hclient
    obtain rfl := hsame conn' z conn _ hconn' howner (howned.sent conn x hconn)
    exact ⟨z, hconn', hnew⟩
  · obtain ⟨x, hx, hconcerns⟩ := hinv.delivered conn y hy
    obtain ⟨conn', hconn'⟩ := hinv.arrived hx
    have howner : x.request.clientId = y.clientId := by
      rcases hconcerns with hnew | hid
      · exact (MEClientRequest.newKey_of_newIdentity hnew).2.2.symm
      · exact (Prod.ext_iff.mp hid).1
    obtain rfl := hsame conn' x conn _ hconn' howner (howned.received conn y hy)
    exact ⟨x, hconn', hconcerns⟩

/-- An ENTER_ORDER to sell 2 shares at price 90 of stock 0; the token repeats
one byte. -/
def sellOrderMessage (token : UInt8) : List UInt8 :=
  79 :: List.replicate 14 token ++ [83] ++ toBigEndian 4 2 ++
    toBigEndian 8 0 ++ toBigEndian 4 90 ++ toBigEndian 4 99998 ++
    List.replicate 13 32

/-- Two clients use the same token; one disconnects, and its socket is used
again.  The other cancels its order. -/
def twoClients : List ExchangeInput :=
  [.recv 7 (enterOrderMessage 0) 1, .recv 8 (enterOrderMessage 0) 2, .publish,
    .process, .process, .drain fun _ => 3, .disconnect 7,
    .recv 7 (enterOrderMessage 0) 4, .publish, .process,
    .recv 8 cancelOrderMessage 5, .publish]

theorem clients_kept_apart_example :
    ∃ e : Exchange ScanPool,
      Exchange.run OuchLayout.packed OuchReplies.packed Surroundings.roomy
        ScanPool 1 4 16 16 twoClients = .ok e ∧
      e.registered = [(7, 0), (8, 0), (7, 1)] ∧
      (e.server.requestQ.length, e.staged.length) = (1, 2) ∧
      (∀ x q e', e.server.requestQ = x :: q →
        e.step OuchLayout.packed OuchReplies.packed Surroundings.roomy
          .process = .ok e' →
        (∃ conn, (conn, x) ∈ e.arrived) ∧
        ∃ responses, e'.responseQ = e.responseQ ++ responses ∧
          ∀ t o, e.desk.Resting t o → ¬ e'.desk.Resting t o →
            e'.Traded responses t o ∨ o.clientId = x.request.clientId ∧
              ∀ conn, (conn, x) ∈ e.arrived → e.CameOn conn o) ∧
      ∀ conn y, (conn, y) ∈ e.staged →
        ∃ x, (conn, x) ∈ e.arrived ∧ x.request.Concerns y := by
  have hobserved : ((Exchange.run OuchLayout.packed OuchReplies.packed
      Surroundings.roomy ScanPool 1 4 16 16 twoClients).toOption.map fun e =>
        (e.registered, e.server.requestQ.length, e.staged.length)) =
      some ([(7, 0), (8, 0), (7, 1)], 1, 2) := by
    decide +kernel
  obtain ⟨e, he, hobserved⟩ := exists_of_toOption_map hobserved
  obtain ⟨hregistered, hlengths⟩ := Prod.mk.inj hobserved
  refine ⟨e, he, hregistered, hlengths, clients_kept_apart OuchLayout.packed
    OuchReplies.packed Surroundings.roomy ScanPool 1 4 16 16 he ?_⟩
  rw [hregistered]
  decide

namespace Exchange

variable {P : Type} {e : Exchange P}

/-- The exchange after `k` clients have come and gone on a socket, one after
the other, without a message. -/
def afterClients (e : Exchange P) (fd k : Nat) : Exchange P :=
  { e with
    server := { e.server with
      nextClientId := (e.server.nextClientId + k) % wordSize }
    sessions := Function.update e.sessions fd (e.sessions fd + k)
    registered := e.registered ++
      (List.range k).map fun j => (fd, e.sessions fd + j) }

theorem afterClients_zero
    (hnext : e.server.nextClientId < wordSize) (fd : Nat) :
    e.afterClients fd 0 = e := by
  simp only [afterClients, Nat.add_zero, Nat.mod_eq_of_lt hnext,
    Function.update_eq_self, List.range_zero, List.map_nil, List.append_nil]

theorem afterClients_succ (fd k : Nat) :
    (e.afterClients fd k).afterClients fd 1 = e.afterClients fd (k + 1) := by
  simp only [afterClients, Function.update_self, Function.update_idem,
    Nat.mod_add_mod, Nat.add_assoc, List.map_cons, List.map_nil,
    List.append_assoc, Nat.add_zero, List.range_succ, List.range_zero,
    List.nil_append, List.map_append]

/-- A client sends one byte that begins no message, and disconnects. -/
def visit (fd : Nat) (b : UInt8) (kernelTime : Nat) : List ExchangeInput :=
  [.recv fd [b] kernelTime, .disconnect fd]

variable [ObjectPool P] {L : OuchLayout} {R : OuchReplies}
  {env : Surroundings}

theorem visit_eq
    {fd kernelTime : Nat} {b : UInt8} (hb : L.ouchMsgSize b = 0)
    (hfd : e.server.fdToClientId fd = none)
    (hsocket : e.server.clientToSocket e.server.nextClientId = none)
    (hin : e.server.inbound fd = []) (hout : e.outbound fd = []) :
    (visit fd b kernelTime).foldlM (step L R env) e =
      .ok (e.afterClients fd 1) := by
  have hrecv : e.server.step L env (.recv fd [b] kernelTime) =
      .ok (e.server.registerClient fd) := by
    have hframes : Framing.frames L.ouchMsgSize [b] = ([], []) := by
      rw [Framing.frames_skip hb, Framing.frames_nil]
    show OrderServer.onRecv L env _ fd kernelTime = _
    rw [OrderServer.onRecv_eq]
    simp only [Function.update_self, hin, List.nil_append, hframes,
      List.foldlM_nil, OrderServer.withClient, hfd, if_true]
    show Except.ok _ = _
    rw [OrderServer.registerClient, OrderServer.registerClient]
    simp only [Function.update_idem]
    rw [← hin, Function.update_eq_self]
  have hleave : (e.server.registerClient fd).onDisconnect fd = { e.server with
      nextClientId := (e.server.nextClientId + 1) % wordSize } := by
    have hgot : (e.server.registerClient fd).fdToClientId fd =
        some e.server.nextClientId := Function.update_self ..
    rw [OrderServer.onDisconnect, hgot]
    simp only [OrderServer.registerClient, Function.update_idem]
    rw [← hfd, Function.update_eq_self, hfd, ← hsocket,
      Function.update_eq_self, ← hin, Function.update_eq_self]
  have houtbound : Function.update e.outbound fd [] = e.outbound := by
    rw [← hout, Function.update_eq_self]
  have harrived : (e.server.registerClient fd).decoded.drop
      e.server.decoded.length = [] := List.drop_length
  rw [visit, List.foldlM_cons, step, Exchange.onRecv, hrecv, ok_bind, ok_bind,
    List.foldlM_cons, step, ok_bind, harrived]
  simp only [Exchange.onDisconnect, hleave, houtbound, hfd, if_true,
    List.map_nil, List.append_nil]
  rfl

theorem visits_eq
    {fd kernelTime : Nat} {b : UInt8} (hb : L.ouchMsgSize b = 0)
    (hnext : e.server.nextClientId < wordSize)
    (hfd : e.server.fdToClientId fd = none) (k : Nat)
    (hsockets : ∀ j < k, e.server.clientToSocket
      ((e.server.nextClientId + j) % wordSize) = none)
    (hin : e.server.inbound fd = []) (hout : e.outbound fd = []) :
    (List.replicate k (visit fd b kernelTime)).flatten.foldlM (step L R env)
        e = .ok (e.afterClients fd k) := by
  induction k with
  | zero =>
      rw [afterClients_zero hnext]
      rfl
  | succ k ih =>
      rw [List.replicate_succ', List.flatten_append, List.foldlM_append,
        ih fun j hj => hsockets j (Nat.lt_succ_of_lt hj), ← afterClients_succ]
      simp only [List.flatten_cons, List.flatten_nil, List.append_nil]
      exact visit_eq hb hfd (hsockets k (Nat.lt_succ_self k)) hin hout

omit [ObjectPool P] in
/-- While only one connection has got an id, no socket has another one. -/
theorem Owned.clientToSocket_none
    (h : Owned e) (hone : e.registered.length = 1) {c : ClientId}
    (hc : c ≠ 1) : e.server.clientToSocket c = none := by
  cases hfd : e.server.clientToSocket c with
  | none => rfl
  | some fd =>
      obtain ⟨k, hk, hid⟩ := h.live fd c (h.socket c fd hfd)
      have hlt := (List.getElem?_eq_some_iff.mp hk).1
      rw [hone, Nat.lt_one_iff] at hlt
      subst hlt
      exact absurd hid hc

end Exchange

/-- A client enters an order and stays connected. -/
def firstClient : List ExchangeInput :=
  [.recv 0 (enterOrderMessage 0) 1, .publish, .process]

/-- So many others come and go that the next gets the client id of the
first. -/
def manyClients : List ExchangeInput :=
  (List.replicate (wordSize - 1) (Exchange.visit 1 0 2)).flatten

/-- The next sends a CANCEL_ORDER with the token of the first. -/
def lastClient : List ExchangeInput :=
  [.recv 1 cancelOrderMessage 3, .publish]

/-- The state after the visits of the many clients, reached without going
through them. -/
theorem run_manyClients :
    ∃ e₁ : Exchange ScanPool,
      Exchange.run OuchLayout.packed OuchReplies.packed Surroundings.roomy
        ScanPool 1 4 16 16 firstClient = .ok e₁ ∧
      Exchange.run OuchLayout.packed OuchReplies.packed Surroundings.roomy
        ScanPool 1 4 16 16 (firstClient ++ manyClients) =
          .ok (e₁.afterClients 1 (wordSize - 1)) := by
  have hobserved : ((Exchange.run OuchLayout.packed OuchReplies.packed
      Surroundings.roomy ScanPool 1 4 16 16 firstClient).toOption.map fun e =>
        (e.server.nextClientId, e.server.fdToClientId 1, e.server.inbound 1,
          e.outbound 1, e.registered.length)) =
      some (2, none, [], [], 1) := by
    decide
  obtain ⟨e₁, he₁, hobserved⟩ := exists_of_toOption_map hobserved
  simp only [Prod.mk.injEq] at hobserved
  obtain ⟨hnext, hfd, hin, hout, hone⟩ := hobserved
  refine ⟨e₁, he₁, ?_⟩
  have howned := (Exchange.run_inv he₁).2
  unfold Exchange.run at he₁ ⊢
  rw [List.foldlM_append, he₁]
  refine Exchange.visits_eq (by decide) (by rw [hnext]; decide) hfd _ ?_ hin
    hout
  intro j hj
  refine howned.clientToSocket_none hone ?_
  rw [hnext]
  unfold wordSize at hj ⊢
  show (2 + j) % 2 ^ 64 ≠ 1
  omega

/-- The order of the first client is canceled by the last. -/
theorem client_id_comes_round :
    ∃ (e e' : Exchange ScanPool) (x : RecvClientRequest) (o : OrderInfo),
      Exchange.run OuchLayout.packed OuchReplies.packed Surroundings.roomy
        ScanPool 1 4 16 16 (firstClient ++ manyClients ++ lastClient) =
          .ok e ∧
      e.server.requestQ = [x] ∧ x.request.action = .cancel ∧
      e.step OuchLayout.packed OuchReplies.packed Surroundings.roomy
        .process = .ok e' ∧
      e.desk.Resting 0 o ∧ ¬ e'.desk.Resting 0 o ∧
      (∀ responses, e'.responseQ = e.responseQ ++ responses →
        ¬ e'.Traded responses 0 o) ∧
      ∀ conn, (conn, x) ∈ e.arrived → ¬ e.CameOn conn o := by
  have hbefore : ((Exchange.run OuchLayout.packed OuchReplies.packed
      Surroundings.roomy ScanPool 1 4 16 16 firstClient >>= fun e =>
        lastClient.foldlM (Exchange.step OuchLayout.packed OuchReplies.packed
          Surroundings.roomy) (e.afterClients 1 (wordSize - 1))).toOption.map
          fun e => (e.server.requestQ.map fun x => x.request.action,
            e.arrived.map fun p => (p.1, p.2.request.action),
            (e.desk.market.ladder 0).orders.length)) =
      some ([.cancel], [((0, 0), .new), ((1, wordSize - 1), .cancel)], 1) := by
    decide +kernel
  have hafter : ((Exchange.run OuchLayout.packed OuchReplies.packed
      Surroundings.roomy ScanPool 1 4 16 16 firstClient >>= fun e =>
        (lastClient ++ [ExchangeInput.process]).foldlM (Exchange.step OuchLayout.packed
          OuchReplies.packed Surroundings.roomy)
          (e.afterClients 1 (wordSize - 1))).toOption.map
          fun e => (e.responseQ.map MEClientResponse.status,
            (e.desk.market.ladder 0).orders.length)) =
      some ([.accepted, .canceled], 0) := by
    decide +kernel
  obtain ⟨e₁, he₁, hmany⟩ := run_manyClients
  rw [he₁, ok_bind] at hbefore hafter
  obtain ⟨e', he', hafter⟩ := exists_of_toOption_map hafter
  obtain ⟨e, he, hstep⟩ := foldlM_append_ok he'
  obtain ⟨e₀, he₀, hbefore⟩ := exists_of_toOption_map hbefore
  obtain rfl := Except.ok.inj (he₀.symm.trans he)
  have hstep : e₀.step OuchLayout.packed OuchReplies.packed
      Surroundings.roomy .process = .ok e' := by
    simpa using hstep
  have hrun : Exchange.run OuchLayout.packed OuchReplies.packed
      Surroundings.roomy ScanPool 1 4 16 16
        (firstClient ++ manyClients ++ lastClient) = .ok e₀ := by
    unfold Exchange.run at hmany ⊢
    rw [List.foldlM_append, hmany]
    exact he₀
  simp only [Prod.mk.injEq] at hbefore hafter
  obtain ⟨hqueue, harrived, hresting⟩ := hbefore
  obtain ⟨hstatus, hempty⟩ := hafter
  obtain ⟨x, q, hq, hcancel, hnil⟩ := List.map_eq_cons_iff.mp hqueue
  obtain rfl := List.map_eq_nil_iff.mp hnil
  obtain ⟨o, ho⟩ := List.length_eq_one_iff.mp hresting
  have hinv := (Exchange.run_inv hrun).1
  have htied : Desk.Tied 1 e₀.desk := hinv.works.tied
  have htied' : Desk.Tied 1 e'.desk := (hinv.step hstep).works.tied
  have hconn : ∀ conn z, (conn, z) ∈ e₀.arrived →
      (conn, z.request.action) ∈
        [((0, 0), .new), ((1, wordSize - 1), ClientRequestType.cancel)] := by
    intro conn z hz
    rw [← harrived]
    exact List.mem_map_of_mem hz
  refine ⟨e₀, e', x, o, hrun, hq, hcancel, hstep, ?_, ?_, ?_, ?_⟩
  · rw [htied.resting_iff, ho]
    exact ⟨Nat.one_pos, List.mem_singleton_self _⟩
  · rw [htied'.resting_iff, List.length_eq_zero_iff.mp hempty]
    exact fun h => nomatch h.2
  · rintro responses hresponses ⟨y, hy, hexecuted, -⟩
    have hmem : y.status ∈ e'.responseQ.map MEClientResponse.status := by
      rw [hresponses]
      exact List.mem_map_of_mem (List.mem_append_right _ hy)
    rw [hstatus, hexecuted] at hmem
    simp at hmem
  · rintro conn hx ⟨z, hz, hnew⟩
    -- the cancel is from the second socket, the order from the first
    have hsecond : conn = (1, wordSize - 1) := by
      simpa [hcancel] using hconn conn x hx
    subst hsecond
    have hcancel' : z.request.action = .cancel := by
      simpa using hconn _ z hz
    simp [MEClientRequest.newIdentity, MEClientRequest.newKey,
      hcancel'] at hnew

end NanoExchange
