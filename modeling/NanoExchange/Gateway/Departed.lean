import NanoExchange.Gateway.Delivery

/-!
# What a client leaves behind

When a connection is lost, the gateway forgets its socket and the engine is not
told: the orders of the client stay in the books.  Its id is not given out
again, so no later message is decoded under it and no later response to it is
put on a socket.  Once the engine has taken what the client had sent before,
its orders are left to the market: nothing but trades takes them away, and no
order of the client comes in.

`Fades` says this of two moments of a run, and every step keeps it.
-/

namespace NanoExchange

open Lib

namespace OrderServer

variable {L : OuchLayout} {env : Surroundings} {s s' : OrderServer}

/-- A call of `onRecv` hands nothing to the engine. -/
theorem recv_handled
    (hfits : s.fifo.Fits) {fd : Nat} {bytes : List UInt8} {kernelTime : Nat}
    (hs' : s.step L env (.recv fd bytes kernelTime) = .ok s') :
    s'.handled = s.handled := by
  let I : OrderServer → Prop := fun t => t.fifo.Fits ∧ t.handled = s.handled
  have hsockets : ∀ t t', SameRequests t t' → I t → I t' := by
    rintro t t' hsame ⟨hfits, hhandled⟩
    exact ⟨hsame.fifo ▸ hfits, hsame.handled.trans hhandled⟩
  have hmessage : ∀ t message, I t →
      ∃ t', t.onMessage L env (s.clientOf fd) kernelTime message = .ok t' ∧
        I t' := by
    rintro t message ⟨hfits, hhandled⟩
    unfold onMessage
    dsimp only
    cases (L.decodeOuch message (s.clientOf fd) t.tokenManager).1 with
    | none => exact ⟨_, rfl, hfits, hhandled⟩
    | some r =>
        dsimp only
        generalize ht₁ : ({ t with
          tokenManager :=
            (L.decodeOuch message (s.clientOf fd) t.tokenManager).2
          decoded := t.decoded ++ [⟨kernelTime, r, message⟩] } :
            OrderServer) = t₁
        obtain ⟨t', ht', hmoves⟩ := stage_ok env
          (show t₁.fifo.Fits by rw [← ht₁]; exact hfits)
          ⟨kernelTime, r, message⟩
        refine ⟨t', ht', hmoves.fits, ?_⟩
        rw [hmoves.handled, ← ht₁]
        exact hhandled
  obtain ⟨t, ht, -, hhandled⟩ :=
    recv_invariant I hsockets hmessage ⟨hfits, rfl⟩ bytes
  obtain rfl := Except.ok.inj (ht.symm.trans hs')
  exact hhandled

end OrderServer

namespace Exchange

variable {P : Type} {n : Nat} {L : OuchLayout} {R : OuchReplies}
  {env : Surroundings} {e₀ e e' : Exchange P} {c : ClientId}

/-- What a call of `onRecv` decodes is under way. -/
theorem Works.underway_recv
    [ObjectPool P] (h : Works n e e.server) {fd : Nat} {bytes : List UInt8}
    {kernelTime : Nat} {s : OrderServer}
    (hs : e.server.step L env (.recv fd bytes kernelTime) = .ok s) :
    ∃ G, s.decoded = e.server.decoded ++ G ∧
      s.underway.Perm (e.server.underway ++ G) ∧
      ∀ x ∈ G, x.request.clientId = e.server.clientOf fd := by
  obtain ⟨hworks, G, hdecoded, hclient⟩ := h.recv hs
  refine ⟨G, hdecoded, ?_, hclient⟩
  have hafter := hworks.conserved
  rw [OrderServer.recv_handled h.fits hs, hdecoded] at hafter
  have hbefore := h.conserved.append_right G
  rw [List.append_assoc] at hbefore
  exact (List.perm_append_left_iff _).mp (hafter.trans hbefore.symm)

/-- The id `c` has been given out, and no connection has it any more. -/
structure Departed (e : Exchange P) (c : ClientId) : Prop where
  got : ∃ conn, GotId e.registered conn c
  gone : ∀ fd, e.server.fdToClientId fd ≠ some c

namespace Departed

/-- Nothing is sent to a client that has gone. -/
theorem no_socket (h : Departed e c) (howned : Owned e) :
    e.server.clientToSocket c = none := by
  cases hfd : e.server.clientToSocket c with
  | none => rfl
  | some fd => exact absurd (howned.socket c fd hfd) (h.gone fd)

/-- The next id is another one, and so is the client of every socket. -/
theorem ne_clientOf
    (h : Departed e c) (howned : Owned e) (fd : Nat)
    (hcount : (e.connect fd).registered.length ≤ wordSize) :
    e.server.clientOf fd ≠ c := by
  unfold OrderServer.clientOf
  cases hfd : e.server.fdToClientId fd with
  | some c' =>
      rintro rfl
      exact h.gone fd hfd
  | none =>
      obtain ⟨conn, hgot⟩ := h.got
      unfold Exchange.connect at hcount
      dsimp only at hcount
      rw [if_pos hfd, List.length_append, List.length_singleton] at hcount
      have hne := hgot.ne_next hcount
      rw [← howned.next] at hne
      exact hne.symm

theorem connect
    (h : Departed e c) (howned : Owned e) (fd : Nat)
    (hcount : (e.connect fd).registered.length ≤ wordSize) :
    Departed (e.connect fd) c := by
  have hne := h.ne_clientOf howned fd hcount
  obtain ⟨conn, hgot⟩ := h.got
  by_cases hnone : e.server.fdToClientId fd = none
  · have hserver : (e.connect fd).server = e.server.registerClient fd :=
      if_pos hnone
    have hregistered : (e.connect fd).registered =
        e.registered ++ [e.connection fd] :=
      if_pos hnone
    refine ⟨⟨conn, hregistered ▸ hgot.concat _⟩, fun fd' hfd' => ?_⟩
    rw [hserver] at hfd'
    have hfd' : Function.update e.server.fdToClientId fd
        (some e.server.nextClientId) fd' = some c := hfd'
    by_cases heq : fd' = fd
    · subst heq
      rw [Function.update_self] at hfd'
      refine hne ?_
      unfold OrderServer.clientOf
      rw [hnone, Option.getD_none]
      exact Option.some.inj hfd'
    · rw [Function.update_of_ne heq] at hfd'
      exact h.gone fd' hfd'
  · have hserver : (e.connect fd).server = e.server := if_neg hnone
    have hregistered : (e.connect fd).registered = e.registered :=
      if_neg hnone
    exact ⟨⟨conn, hregistered ▸ hgot⟩, hserver ▸ h.gone⟩

theorem onDisconnect (h : Departed e c) (fd : Nat) :
    Departed (e.onDisconnect fd) c := by
  refine ⟨h.got, fun fd' hfd' => ?_⟩
  have hfds := (OrderServer.onDisconnect_sockets e.server fd).1
  have hfd' : (e.server.onDisconnect fd).fdToClientId fd' = some c := hfd'
  rw [hfds] at hfd'
  by_cases heq : fd' = fd
  · subst heq
    rw [Function.update_self] at hfd'
    cases hfd'
  · rw [Function.update_of_ne heq] at hfd'
    exact h.gone fd' hfd'

end Departed

/-- Among the responses `since`, trades account for what has become of an order
of book `t`: it rests as it was, or it has been executed and what the last
trade has left rests. -/
def OnlyTraded (e : Exchange P) (since : List MEClientResponse)
    (t : TickerId) (o : OrderInfo) : Prop :=
  e.desk.Resting t o ∨
  ∃ y ∈ since, y.status = .executed ∧ y.identity = o.identity ∧
    y.leavesQty + y.executedQty ≤ o.remainingQuantity ∧
    (y.leavesQty = 0 ∨ e.desk.Resting t (o.withRemaining y.leavesQty))

/-- One more request is taken; what it does to the order, a trade accounts
for. -/
theorem OnlyTraded.process
    {since responses : List MEClientResponse} {t : TickerId} {o : OrderInfo}
    (h : e.OnlyTraded since t o)
    (htraded : ∀ o', o'.clientId = o.clientId → e.desk.Resting t o' →
      ¬ e'.desk.Resting t o' → e'.Traded responses t o') :
    e'.OnlyTraded (since ++ responses) t o := by
  rcases h with ho | ⟨y, hy, hstatus, hid, hle, hleft⟩
  · by_cases ho' : e'.desk.Resting t o
    · exact .inl ho'
    · obtain ⟨y, hy, hstatus, hid, hqty, hleft⟩ := htraded o rfl ho ho'
      exact .inr ⟨y, List.mem_append_right _ hy, hstatus, hid, hqty.ge, hleft⟩
  · rcases hleft with hzero | ho
    · exact .inr ⟨y, List.mem_append_left _ hy, hstatus, hid, hle,
        .inl hzero⟩
    · by_cases ho' : e'.desk.Resting t (o.withRemaining y.leavesQty)
      · exact .inr ⟨y, List.mem_append_left _ hy, hstatus, hid, hle,
          .inr ho'⟩
      · obtain ⟨y', hy', hstatus', hid', hqty', hleft'⟩ :=
          htraded (o.withRemaining y.leavesQty) rfl ho ho'
        rw [OrderInfo.withRemaining_remaining] at hqty'
        refine .inr ⟨y', List.mem_append_right _ hy', hstatus', hid', ?_,
          hleft'⟩
        rw [← hqty']
        exact Nat.le_trans (Nat.le_add_right _ _) hle

/-- **What a client leaves behind** that has gone at `e₀`, at a later moment
`e`. -/
structure Fades (c : ClientId) (e₀ e : Exchange P) : Prop where
  departed : Departed e c
  /-- No request of it is decoded any more. -/
  decoded : e.server.decoded.filter (fun x => x.request.clientId = c) =
    e₀.server.decoded.filter (fun x => x.request.clientId = c)
  underway : ∀ x ∈ e.server.underway, x.request.clientId = c →
    x ∈ e₀.server.underway
  /-- No response to it is put on a socket any more. -/
  staged : e.staged.filter (fun p => p.2.clientId = c) =
    e₀.staged.filter (fun p => p.2.clientId = c)
  /-- Its orders are left to the market. -/
  orders : (∀ x ∈ e₀.server.underway, x.request.clientId ≠ c) →
    ∃ since,
      e.engine.channel.responses = e₀.engine.channel.responses ++ since ∧
      (∀ t o, e₀.desk.Resting t o → o.clientId = c → e.OnlyTraded since t o) ∧
      ∀ t o, e.desk.Resting t o → o.clientId = c →
        ∃ o₀, e₀.desk.Resting t o₀ ∧ o.identity = o₀.identity

namespace Fades

theorem refl (h : Departed e c) : Fades c e e where
  departed := h
  decoded := rfl
  underway _ hx _ := hx
  staged := rfl
  orders _ := ⟨[], (List.append_nil _).symm, fun _ _ ho _ => .inl ho,
    fun _ o ho _ => ⟨o, ho, rfl⟩⟩

/-- A step that leaves the engine alone. -/
theorem of_engine
    (h : Fades c e₀ e) (hdeparted : Departed e' c)
    (hdecoded : e'.server.decoded.filter (fun x => x.request.clientId = c) =
      e.server.decoded.filter (fun x => x.request.clientId = c))
    (hunderway : ∀ x ∈ e'.server.underway, x.request.clientId = c →
      x ∈ e.server.underway)
    (hstaged : e'.staged.filter (fun p => p.2.clientId = c) =
      e.staged.filter (fun p => p.2.clientId = c))
    (hengine : e'.engine = e.engine) :
    Fades c e₀ e' where
  departed := hdeparted
  decoded := hdecoded.trans h.decoded
  underway x hx hc := h.underway x (hunderway x hx hc) hc
  staged := hstaged.trans h.staged
  orders hidle := by
    have hresting : ∀ t o, e'.desk.Resting t o ↔ e.desk.Resting t o := by
      intro t o
      unfold Desk.Resting desk
      rw [hengine]
    obtain ⟨since, hsince, hleft, hfrom⟩ := h.orders hidle
    refine ⟨since, by rw [hengine, hsince], fun t o ho hc => ?_,
      fun t o ho => hfrom t o ((hresting t o).mp ho)⟩
    unfold OnlyTraded
    simp only [hresting]
    exact hleft t o ho hc

theorem onRecv
    [ObjectPool P] (h : Fades c e₀ e) (hinv : Inv n e) (howned : Owned e) {fd : Nat}
    {bytes : List UInt8} {kernelTime : Nat}
    (he' : e.onRecv L env fd bytes kernelTime = .ok e')
    (hcount : e'.registered.length ≤ wordSize) :
    Fades c e₀ e' := by
  obtain ⟨s, hs, rfl⟩ := onRecv_ok he'
  obtain ⟨hfds, -, -⟩ := OrderServer.recv_sockets hinv.works.fits hs
  obtain ⟨G, hdecoded, hunderway, hclient⟩ := hinv.works.underway_recv hs
  have hcount' : (e.connect fd).registered.length ≤ wordSize := hcount
  have hne := h.departed.ne_clientOf howned fd hcount'
  have hconnect := h.departed.connect howned fd hcount'
  have hother : ∀ x ∈ G, x.request.clientId ≠ c := by
    intro x hx
    rw [hclient x hx]
    exact hne
  refine h.of_engine ⟨hconnect.got, fun fd' hfd' => ?_⟩ ?_ ?_ rfl rfl
  · dsimp only at hfd'
    rw [hfds] at hfd'
    exact hconnect.gone fd' hfd'
  · have hnone : G.filter (fun x => x.request.clientId = c) = [] :=
      List.filter_eq_nil_iff.mpr fun x hx => by simpa using hother x hx
    dsimp only
    rw [hdecoded, List.filter_append, hnone, List.append_nil]
  · intro x hx hc
    rcases List.mem_append.mp (hunderway.mem_iff.mp hx) with hx | hx
    · exact hx
    · exact absurd hc (hother x hx)

theorem drain
    (h : Fades c e₀ e) (howned : Owned e) (clock : Nat → Nat) :
    Fades c e₀ (e.drainResponses R clock) := by
  obtain ⟨outbound, more, heq, hmore⟩ :=
    deliverAll_eq (R := R) clock 0 e.responseQ e
  have hnone : more.filter (fun p => p.2.clientId = c) = [] := by
    refine List.filter_eq_nil_iff.mpr fun p hp hc => ?_
    obtain ⟨-, fd, hfd, -⟩ := hmore p.1 p.2 hp
    rw [of_decide_eq_true hc, h.departed.no_socket howned] at hfd
    cases hfd
  unfold drainResponses
  rw [heq]
  refine h.of_engine ⟨h.departed.got, h.departed.gone⟩ rfl
    (fun _ hx _ => hx) ?_ rfl
  dsimp only
  rw [List.filter_append, hnone, List.append_nil]

end Fades

section Runs

variable [ObjectPool P]

namespace Fades

theorem process
    (h : Fades c e₀ e) (hinv : Inv n e) (he' : e.process = .ok e') :
    Fades c e₀ e' := by
  rcases process_cases he' with
    ⟨-, rfl⟩ | ⟨x, q, engine, responses, hq, -, -, heq⟩
  · exact h
  have htied : Desk.Tied n e.desk := hinv.works.tied
  have hx : x ∈ e.server.underway := by
    rw [OrderServer.underway, hq]
    exact List.mem_append_left _ List.mem_cons_self
  have hsub : ∀ z ∈ e'.server.underway, z ∈ e.server.underway := by
    intro z hz
    rw [heq] at hz
    rw [OrderServer.underway, hq]
    exact List.mem_cons_of_mem _ hz
  refine ⟨?_, ?_, fun z hz hc => h.underway z (hsub z hz) hc, ?_, ?_⟩
  · rw [heq]
    exact ⟨h.departed.got, h.departed.gone⟩
  · rw [heq]
    exact h.decoded
  · rw [heq]
    exact h.staged
  · intro hidle
    have hother : x.request.clientId ≠ c :=
      fun hc => hidle x (h.underway x hx hc) hc
    obtain ⟨since, hsince, hleft, hfrom⟩ := h.orders hidle
    obtain ⟨hsent, -⟩ := hinv.process_sends hq he'
    refine ⟨since ++ _, by rw [hsent, hsince, List.append_assoc], ?_, ?_⟩
    · intro t o ho hc
      refine (hleft t o ho hc).process fun o' hclient hresting hgone => ?_
      refine (hinv.touches hq he' hresting hgone).resolve_right ?_
      rw [hclient, hc]
      exact hother.symm
    · intro t o ho hc
      obtain ⟨-, hworks, -, -, -, hmarket, -⟩ := hinv.take hq he'
      have htied' : Desk.Tied n e'.desk := hworks.tied
      have hperm : e.desk.inFlight.Perm (x.request ::
          (q ++ e.server.fifo.pending).map RecvClientRequest.request) := by
        rw [desk, OrderServer.underway, hq]
        rfl
      obtain ⟨ht, hmem⟩ := htied'.resting_iff.mp ho
      rw [hmarket] at hmem
      rcases Market.identity_next (htied.ready hperm) hmem with
        ⟨o', ho', hid⟩ | ⟨-, hnew⟩
      · have hc' : o'.clientId = c :=
          (Prod.ext_iff.mp hid).1.symm.trans hc
        obtain ⟨o₀, ho₀, hid₀⟩ :=
          hfrom t o' (htied.resting_iff.mpr ⟨ht, ho'⟩) hc'
        exact ⟨o₀, ho₀, hid.trans hid₀⟩
      · have hclient := (MEClientRequest.newKey_of_newIdentity hnew).2.2
        exact absurd (hclient.symm.trans hc) hother

/-- **Every step keeps it.** -/
theorem step
    (h : Fades c e₀ e) (hinv : Inv n e) (howned : Owned e)
    {i : ExchangeInput} (he' : e.step L R env i = .ok e')
    (hcount : e'.registered.length ≤ wordSize) :
    Fades c e₀ e' := by
  cases i with
  | recv fd bytes kernelTime => exact h.onRecv hinv howned he' hcount
  | publish =>
      obtain rfl := Except.ok.inj he'
      have hmoves :=
        OrderServer.publishPendingOrders_moves env hinv.works.fits
      refine h.of_engine ⟨h.departed.got, h.departed.gone⟩ rfl ?_ rfl rfl
      intro x hx _
      have hperm := hmoves.underway
      rw [List.append_nil] at hperm
      exact hperm.mem_iff.mp hx
  | disconnect fd =>
      obtain rfl := Except.ok.inj he'
      have hsame := OrderServer.onDisconnect_sameRequests e.server fd
      refine h.of_engine (h.departed.onDisconnect fd) ?_ ?_ rfl rfl
      · exact congrArg _ hsame.decoded
      · intro x hx _
        have hx : x ∈ (e.server.onDisconnect fd).requestQ ++
            (e.server.onDisconnect fd).fifo.pending := hx
        rwa [hsame.requestQ, hsame.fifo] at hx
  | process => exact h.process hinv he'
  | drain clock =>
      obtain rfl := Except.ok.inj he'
      exact h.drain howned clock

end Fades

/-- **What a departed client has left behind fades**, in every run in which at
most `2^64` connections have got a client id: from the moment on at which its
connection is lost, no request of the client is decoded and no response to it
is put on a socket.  If its last request has been taken by then, its orders are
left to the market: trades account for what becomes of them. -/
theorem departed_client_fades
    {books poolSize fifoPending tokenPoolSz : Nat}
    {inputs more : List ExchangeInput}
    (he₀ : run L R env P books poolSize fifoPending tokenPoolSz inputs =
      .ok e₀)
    (he : run L R env P books poolSize fifoPending tokenPoolSz
      (inputs ++ more) = .ok e)
    (hcount : e.registered.length ≤ wordSize) (hc : Departed e₀ c) :
    Fades c e₀ e := by
  induction more using List.reverseRecOn generalizing e with
  | nil =>
      rw [List.append_nil] at he
      obtain rfl := Except.ok.inj (he₀.symm.trans he)
      exact .refl hc
  | append_singleton more i ih =>
      rw [← List.append_assoc] at he
      obtain ⟨e₁, he₁, hlast⟩ := foldlM_append_ok he
      have hstep : e₁.step L R env i = .ok e := by
        simpa using hlast
      have hlen := (registered_mono hstep).length_le
      obtain ⟨hinv, howned⟩ := run_inv he₁
      exact (ih he₁ (hlen.trans hcount)).step hinv howned hstep hcount

/-- The first of two clients goes, and the second sells to its order. -/
theorem departed_client_fades_example :
    ∃ e₀ e : Exchange ScanPool,
      run OuchLayout.packed OuchReplies.packed Surroundings.roomy ScanPool
        1 4 16 16 (twoClients.take 7) = .ok e₀ ∧
      run OuchLayout.packed OuchReplies.packed Surroundings.roomy ScanPool
        1 4 16 16 (twoClients.take 7 ++ [.recv 8 (sellOrderMessage 67) 5,
          .publish, .process, .drain fun _ => 6]) = .ok e ∧
      e₀.server.underway = [] ∧
      (ofClient 1 e.engine.channel.responses).map MEClientResponse.status =
        [.accepted, .executed] ∧
      (e.staged.filter fun p => p.2.clientId = 1).length = 1 ∧
      Fades 1 e₀ e := by
  have hobserved₀ : ((run OuchLayout.packed OuchReplies.packed
      Surroundings.roomy ScanPool 1 4 16 16
      (twoClients.take 7)).toOption.map fun e =>
        (e.registered, e.server.fdToClientId 7, e.server.underway)) =
      some ([(7, 0), (8, 0)], none, []) := by
    decide +kernel
  have hobserved : ((run OuchLayout.packed OuchReplies.packed
      Surroundings.roomy ScanPool 1 4 16 16 (twoClients.take 7 ++
        [.recv 8 (sellOrderMessage 67) 5, .publish, .process,
          .drain fun _ => 6])).toOption.map fun e =>
        (e.registered.length,
          (ofClient 1 e.engine.channel.responses).map MEClientResponse.status,
          (e.staged.filter fun p => p.2.clientId = 1).length)) =
      some (2, [.accepted, .executed], 1) := by
    decide +kernel
  obtain ⟨e₀, he₀, hobserved₀⟩ := exists_of_toOption_map hobserved₀
  obtain ⟨e, he, hobserved⟩ := exists_of_toOption_map hobserved
  obtain ⟨hregistered, hobserved₀⟩ := Prod.mk.inj hobserved₀
  obtain ⟨hseven, hunderway⟩ := Prod.mk.inj hobserved₀
  obtain ⟨hcount, hobserved⟩ := Prod.mk.inj hobserved
  obtain ⟨hstatus, hstaged⟩ := Prod.mk.inj hobserved
  have hgot : GotId e₀.registered (7, 0) 1 := by
    rw [hregistered]
    exact ⟨0, rfl, by decide⟩
  have hgone : ∀ fd, e₀.server.fdToClientId fd ≠ some 1 := by
    intro fd hfd
    have hlive := (run_inv he₀).2.live fd 1 hfd
    have hsame := hlive.unique (by rw [hregistered]; decide) hgot
    rw [(Prod.mk.inj hsame).1, hseven] at hfd
    cases hfd
  refine ⟨e₀, e, he₀, he, hunderway, hstatus, hstaged,
    departed_client_fades he₀ he ?_ ⟨⟨_, hgot⟩, hgone⟩⟩
  rw [hcount]
  decide

end Runs

end Exchange

end NanoExchange
