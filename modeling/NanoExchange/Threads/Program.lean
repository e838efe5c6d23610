import NanoExchange.Threads.Broadcast
import NanoExchange.Gateway.Departed

/-!
# The whole program

`Pipeline` takes any requests, and `OrderServer` has no threads behind it.  In
the program the requests are those that the gateway decodes from the bytes of
its clients.  What a message is decoded to does not depend on what becomes of a
request once it has been staged; so a `Program` is the threads with the decoded
requests that have yet to be handed over, one after the other.

The gateway promises what the rest relies on: the ids that the requests bring
are new, and their numbers fit into the messages
(`OrderServer.run_decodes`).  With that nothing is left to ask of the clients
but that their cancels are whole and their replacements do not cross.
-/

namespace NanoExchange

open Lib

section Decoding

variable {L : OuchLayout} {env : Surroundings}

namespace OrderServer

/-- A gateway with no engine behind it. -/
structure Decoding (L : OuchLayout) (s : OrderServer) : Prop where
  works : Exchange.Works 0 (Exchange.init 0 0 0 0 : Exchange ScanPool) s
  handled : s.handled = []
  sent : ∀ x ∈ s.decoded, L.Sent x.message x.request

theorem Decoding.step
    {s s' : OrderServer} (h : Decoding L s) {i : Input} (hi : i ≠ .process)
    (hs' : s.step L env i = .ok s') :
    Decoding L s' := by
  cases i with
  | recv fd bytes kernelTime =>
      obtain ⟨hworks, -⟩ := h.works.recv hs'
      exact ⟨hworks, (recv_handled h.works.fits hs').trans h.handled,
        sent_of_recv h.works.fits hs' h.sent⟩
  | publish =>
      obtain rfl := Except.ok.inj hs'
      have hmoves := publishPendingOrders_moves env h.works.fits
      exact ⟨h.works.moves hmoves, h.handled, h.sent⟩
  | disconnect fd =>
      obtain rfl := Except.ok.inj hs'
      have hsame := onDisconnect_sameRequests s fd
      exact ⟨h.works.of_same hsame, hsame.handled.trans h.handled,
        hsame.decoded.symm ▸ h.sent⟩
  | process => exact absurd rfl hi

/-- **What the gateway promises of the requests it decodes**: the ids that they
bring are new, and each is what a complete message says. -/
theorem run_decodes
    {fifoPending tokenPoolSz : Nat} {inputs : List Input}
    (hinputs : ∀ i ∈ inputs, i ≠ .process) {s : OrderServer}
    (hs : run L env fifoPending tokenPoolSz inputs = .ok s) :
    FreshKeys (s.decoded.map RecvClientRequest.request) ∧
      ∀ x ∈ s.decoded, L.Sent x.message x.request := by
  have hdecoding : Decoding L s := by
    induction inputs using List.reverseRecOn generalizing s with
    | nil =>
        obtain rfl := Except.ok.inj hs
        exact ⟨⟨.init fifoPending, List.Perm.refl _, .init 0 0 tokenPoolSz⟩,
          rfl, nofun⟩
    | append_singleton inputs i ih =>
        obtain ⟨s₀, hs₀, hlast⟩ := foldlM_append_ok hs
        have hstep : s₀.step L env i = .ok s := by
          simpa using hlast
        have h₀ := ih (fun j hj => hinputs j (List.mem_append_left _ hj)) hs₀
        exact h₀.step (hinputs i (by simp)) hstep
  refine ⟨?_, hdecoding.sent⟩
  have hperm := hdecoding.works.conserved
  rw [hdecoding.handled, List.nil_append] at hperm
  have hfresh : FreshKeys (s.underway.map RecvClientRequest.request) :=
    hdecoding.works.tied.fresh
  exact hfresh.perm (hperm.map _)

end OrderServer

end Decoding

namespace FrontEnd

variable {S : StdSort} {f f' : FrontEnd}

/-- A request that the server hands over waits behind the others. -/
theorem recv_waiting
    (hfits : f.fifo.Fits) {x : RecvClientRequest}
    (hstep : f.recv S x = some f') :
    f'.accepted = f.accepted ∧ f'.waiting.Perm (f.waiting ++ [x]) := by
  unfold recv at hstep
  cases hphase : f.phase with
  | receive =>
      simp only [hphase] at hstep
      have hwaiting : f.waiting = f.fifo.pending := by
        simp [waiting, held, hphase]
      rw [hwaiting]
      cases hadd : f.fifo.addToPending x with
      | some fifo =>
          simp only [hadd, Option.some.injEq] at hstep
          subst hstep
          refine ⟨rfl, ?_⟩
          have hpending := (hfits.add hadd).2
          simp [waiting, held, hpending]
      | none =>
          simp only [hadd, Option.some.injEq] at hstep
          subst hstep
          exact ⟨rfl, (f.fifo.sortPending_perm S).append_right [x]⟩
  | test | drain | publish | exited =>
      simp only [hphase, reduceCtorEq] at hstep

theorem recvFinished_waiting (hstep : f.recvFinished S = some f') :
    f'.accepted = f.accepted ∧ f'.waiting.Perm f.waiting := by
  unfold recvFinished at hstep
  cases hphase : f.phase with
  | receive =>
      simp only [hphase, Option.some.injEq] at hstep
      subst hstep
      refine ⟨rfl, ?_⟩
      have hwaiting : f.waiting = f.fifo.pending ++ [] := by
        simp [waiting, held, hphase]
      rw [hwaiting]
      exact (f.fifo.sortPending_perm S).append_right []
  | test | drain | publish | exited =>
      simp only [hphase, reduceCtorEq] at hstep

end FrontEnd

/-- Without a request from the server, no request is lost or made up. -/
theorem Pipeline.carries_of_step
    {σ : Type} {c : Capacities} {P : Processor σ} {S : StdSort}
    {s s' : Pipeline σ} {a : ThreadAction} (hfits : s.front.fifo.Fits)
    (hno : ∀ x, a ≠ .recv x) (hstep : s.step c P S a = some s') :
    s.Carries s' := by
  cases a with
  | recv x => exact absurd rfl (hno x)
  | gateway =>
      obtain ⟨f, hf, rfl⟩ := Option.map_eq_some_iff.mp hstep
      obtain ⟨l, -, haccepted, hwaiting⟩ :=
        (FrontEnd.Moves.gateway hfits hf).forwards
      exact ⟨l, haccepted, hwaiting⟩
  | recvFinished =>
      obtain ⟨f, hf, rfl⟩ := Option.map_eq_some_iff.mp hstep
      obtain ⟨haccepted, hwaiting⟩ := FrontEnd.recvFinished_waiting hf
      exact ⟨[], haccepted.trans (List.append_nil _).symm, hwaiting⟩
  | engine =>
      cases EngineStep.of_engine hstep with
      | test | idle | begin | respond | publish | finish => exact .refl s
  | main =>
      obtain ⟨m, rfl⟩ := mainThread_eq hstep
      exact .refl s
  | publisher | streamer =>
      obtain ⟨b, -, rfl⟩ := Option.map_eq_some_iff.mp hstep
      exact .refl s

/-- The threads, and the decoded requests that the server has yet to hand
over. -/
structure Program (σ : Type) where
  threads : Pipeline σ
  coming : List RecvClientRequest

namespace Program

variable {σ : Type} (c : Capacities) (P : Processor σ) (S : StdSort)

/-- A step of the threads; the server hands over the first of the decoded
requests, and no other. -/
def step (p : Program σ) (a : ThreadAction) : Option (Program σ) :=
  match a with
  | .recv x =>
      match p.coming with
      | [] => none
      | y :: rest =>
          if x = y then
            (p.threads.step c P S (.recv x)).map fun threads =>
              { threads := threads, coming := rest }
          else none
  | a => (p.threads.step c P S a).map fun threads =>
      { p with threads := threads }

/-- A run of the program under any schedule, in which the server has these
requests to hand over. -/
def Reachable (fifoPending : Nat) (decoded : List RecvClientRequest)
    (p : Program σ) : Prop :=
  Steps (step c P S) (fun _ _ => True)
    { threads := .init P fifoPending, coming := decoded } p

variable {c P S} {p p' : Program σ} {decoded : List RecvClientRequest}
  {fifoPending : Nat}

/-- **What a step of the program can do**: the threads take a step, and what
the server hands over comes from the decoded requests. -/
theorem step_cases {a : ThreadAction} (hstep : p.step c P S a = some p') :
    p.threads.step c P S a = some p'.threads ∧
      ((∃ x, a = .recv x ∧ p.coming = x :: p'.coming) ∨
        ((∀ x, a ≠ .recv x) ∧ p'.coming = p.coming)) := by
  cases a with
  | recv x =>
      unfold step at hstep
      cases hcoming : p.coming with
      | nil => simp only [hcoming, reduceCtorEq] at hstep
      | cons y rest =>
          simp only [hcoming] at hstep
          split_ifs at hstep with hxy
          subst hxy
          obtain ⟨threads, hthreads, rfl⟩ := Option.map_eq_some_iff.mp hstep
          exact ⟨hthreads, .inl ⟨x, rfl, rfl⟩⟩
  | main | gateway | recvFinished | engine | publisher | streamer =>
      obtain ⟨threads, hthreads, rfl⟩ := Option.map_eq_some_iff.mp hstep
      exact ⟨hthreads, .inr ⟨nofun, rfl⟩⟩

/-- A run of the program is a run of its threads. -/
theorem Reachable.pipeline (h : Reachable c P S fifoPending decoded p) :
    Pipeline.Reachable c P S fifoPending p.threads :=
  h.lift Program.threads fun _ a _ _ hstep =>
    ⟨a, trivial, (step_cases hstep).1⟩

/-- The requests that have been handed over are queued or wait. -/
def Handed (decoded : List RecvClientRequest) (p : Program σ) : Prop :=
  ∃ handed, decoded = handed ++ p.coming ∧
    (p.threads.front.accepted ++
      p.threads.front.waiting.map RecvClientRequest.request).Perm
        (handed.map RecvClientRequest.request)

theorem Handed.step
    {a : ThreadAction} (h : p.Handed decoded)
    (hfits : p.threads.front.fifo.Fits) (hstep : p.step c P S a = some p') :
    p'.Handed decoded := by
  obtain ⟨handed, hdecoded, hperm⟩ := h
  obtain ⟨hthreads, ⟨x, rfl, hcoming⟩ | ⟨hno, hcoming⟩⟩ := step_cases hstep
  · obtain ⟨f, hf, hfront⟩ := Option.map_eq_some_iff.mp hthreads
    obtain ⟨haccepted, hwaiting⟩ := FrontEnd.recv_waiting hfits hf
    refine ⟨handed ++ [x], ?_, ?_⟩
    · rw [hdecoded, hcoming, List.append_assoc]
      rfl
    · rw [← hfront]
      show (f.accepted ++ f.waiting.map _).Perm _
      rw [haccepted, List.map_append]
      have hmap := hwaiting.map RecvClientRequest.request
      rw [List.map_append] at hmap
      refine (hmap.append_left _).trans ?_
      rw [← List.append_assoc]
      exact hperm.append_right _
  · obtain ⟨l, haccepted, hwaiting⟩ :=
      Pipeline.carries_of_step hfits hno hthreads
    refine ⟨handed, by rw [hcoming, hdecoded], ?_⟩
    have hmap := hwaiting.map RecvClientRequest.request
    rw [List.map_append] at hmap
    rw [haccepted, List.append_assoc]
    exact (hmap.append_left _).trans hperm

theorem Reachable.handed (h : Reachable c P S fifoPending decoded p) :
    p.Handed decoded := by
  have hinv := h.invariant
    (fun p => p.threads.Consistent P ∧ p.Handed decoded)
    (fun p a p' _ hp hstep =>
      ⟨hp.1.step (step_cases hstep).1, hp.2.step hp.1.fits hstep⟩)
    ⟨.init fifoPending, [], rfl, List.Perm.refl _⟩
  exact hinv.2

/-- What the engine has been given has been decoded. -/
theorem Reachable.accepted
    (h : Reachable c P S fifoPending decoded p)
    (hfresh : FreshKeys (decoded.map RecvClientRequest.request)) :
    FreshKeys p.threads.front.accepted ∧
      ∀ r ∈ p.threads.front.accepted, ∃ x ∈ decoded, x.request = r := by
  obtain ⟨handed, rfl, hperm⟩ := h.handed
  rw [List.map_append] at hfresh
  refine ⟨(hfresh.left.perm hperm.symm).left, fun r hr => ?_⟩
  have hmem := hperm.subset (List.mem_append_left _ hr)
  obtain ⟨x, hx, hrequest⟩ := List.mem_map.mp hmem
  exact ⟨x, List.mem_append_left _ hx, hrequest⟩

end Program

/-- **Every response is about a request of the run**, or about the order that
one has brought. -/
theorem Market.run_concerns
    {rs : List MEClientRequest} (hfresh : FreshKeys rs) :
    ∀ y ∈ ((run rs).sent Dialect.map).responses,
      ∃ r ∈ rs, r.Concerns y := by
  refine run_induction
    (C := fun A r => r ∈ rs ∧ ∀ o ∈ A.orders, ∃ r' ∈ rs, r'.Brings o)
    (fun M => ∀ y ∈ (M.sent Dialect.map).responses,
      ∃ r ∈ rs, r.Concerns y) ?_ ?_ hfresh ?_
  · intro y hy
    rw [sent_responses] at hy
    cases hy
  · rintro M r - - ⟨hr, hbrought⟩ hM y hy
    rw [sent_responses] at hy hM
    rw [next, List.flatMap_append, List.mem_append] at hy
    rcases hy with hy | hy
    · exact hM y hy
    obtain ⟨event, hevent, hy⟩ := List.mem_flatMap.mp hy
    rcases Ladder.step_events_identity _ r hevent
        (Event.identity_of_mem_responses hy) with
      ⟨⟨o, ho, hid⟩, -⟩ | ⟨hnew, -⟩ | ⟨hid, -⟩
    · obtain ⟨r', hr', hbrings⟩ := hbrought o ho
      exact ⟨r', hr', .inl (hid ▸ hbrings.identity)⟩
    · exact ⟨r, hr, .inl hnew⟩
    · exact ⟨r, hr, .inr hid.symm⟩
  · rintro pre r post rfl
    refine ⟨by simp, fun o ho => ?_⟩
    obtain ⟨r', hr', hbrings, -⟩ := run_brings hfresh.left ho
    exact ⟨r', List.mem_append_left _ hr', hbrings⟩

section Program

variable {Q : Type} [ObjectPool Q] {n poolSize fifoPending : Nat}
  {c : Capacities} {S : StdSort}

open MatchingEngine (processor)

/-- **From the bytes of clients through the threads to clients and
subscribers.**  Clients connect, disconnect and send any bytes, the threads run
under any schedule with queues of any capacities, and datagrams are lost,
repeated and reordered; the accepted cancels are whole and the accepted
replacements do not cross.  Once all is handed over and the threads have
settled, the engine has been given every request that was decoded, and each of
them once.  A response that the gateway has popped is about a request of the
client it is for, or about an order of that client.  A subscriber that has come
to the last update of some request has exactly the quotes of the orders that
were resting in the books after that request.  One that has heard every datagram
in its turn, among others, has come to the last one, and has the books as they
are once the threads have settled. -/
theorem threads_serve_clients_and_subscribers
    (T : ItchTypes) {L : OuchLayout} (K : L.PackedFields)
    (env : Surroundings) (clock : Nat → Nat) (hn : n ≤ 2 ^ 16)
    {maxPending tokenPoolSz : Nat} {inputs : List Input}
    (hinputs : ∀ i ∈ inputs, i ≠ .process) {server : OrderServer}
    (hserver : OrderServer.run L env maxPending tokenPoolSz inputs =
      .ok server)
    {p : Program (Except Fault (MatchingEngine MapLevels Q))}
    (hreach : Program.Reachable c (processor MapLevels Q n poolSize) S
      fifoPending server.decoded p)
    (hlen : p.threads.front.accepted.length < 2 ^ 63)
    (hwhole : MatchingEngine.EachStep MapLevels Q n poolSize OrderBook.Whole
      p.threads.front.accepted)
    {e : MatchingEngine MapLevels Q}
    (he : MatchingEngine.run MapLevels Q n poolSize
      p.threads.front.accepted = .ok e)
    (hupdates : e.channel.updates.length + 1 < wordSize)
    {heard : List (List UInt8)}
    (hheard : ∀ d ∈ heard,
      d ∈ datagrams T.layout clock p.threads.back.published) :
    (p.coming = [] → p.threads.Settled → p.threads.front.accepted.Perm
      (server.decoded.map RecvClientRequest.request)) ∧
    (∀ y ∈ p.threads.front.delivered,
      ∃ x ∈ server.decoded, x.request.Concerns y) ∧
    (∀ pre post e', p.threads.front.accepted = pre ++ post →
      MatchingEngine.run MapLevels Q n poolSize pre = .ok e' →
      (Subscriber.listen T heard).seq = e'.channel.updates.length →
      (Subscriber.listen T heard).Mirrors n e') ∧
    ((datagrams T.layout clock p.threads.back.published).Sublist heard →
      (Subscriber.listen T heard).seq = p.threads.back.published.length ∧
      (p.threads.Settled → p.threads.books = .ok e.flush ∧
        (Subscriber.listen T heard).Mirrors n e)) := by
  obtain ⟨hdecoded, hsent⟩ := OrderServer.run_decodes hinputs hserver
  obtain ⟨hfresh, horigin⟩ := hreach.accepted hdecoded
  have hnarrow : ∀ r ∈ p.threads.front.accepted, r.Narrow := by
    intro r hr
    obtain ⟨x, hx, rfl⟩ := horigin r hr
    exact (hsent x hx).narrow K
  have hthreads := hreach.pipeline
  obtain ⟨hconsistent, -⟩ := hthreads.sound
  obtain ⟨hquotes, hall⟩ := hthreads.informs T clock hn hfresh hlen hnarrow
    hwhole he hupdates hheard
  refine ⟨fun hcoming hsettled => ?_, fun y hy => ?_, hquotes,
    fun hturns => ?_⟩
  · obtain ⟨handed, hall, hperm⟩ := hreach.handed
    rw [hcoming, List.append_nil] at hall
    rw [hsettled.waiting, List.map_nil, List.append_nil] at hperm
    exact hall ▸ hperm
  · obtain ⟨hdelivered, -⟩ := hconsistent.passes List.prefix_rfl he
    have hrep : MatchingEngine.Represents n e
        (Market.run p.threads.front.accepted) :=
      (MatchingEngine.run_refines Q n poolSize hfresh
        (MatchingEngine.run_about he).2.1 fun _ _ _ => trivial).of_ok he
    have hy := hdelivered.subset hy
    rw [hrep.sent] at hy
    obtain ⟨r, hr, hconcerns⟩ := Market.run_concerns hfresh y hy
    obtain ⟨x, hx, rfl⟩ := horigin r hr
    exact ⟨x, hx, hconcerns⟩
  · obtain ⟨hseq, hbooks⟩ := hall hturns
    refine ⟨hseq, fun hsettled => ⟨?_, hbooks hsettled⟩⟩
    exact (hconsistent.sent_settled hsettled he).1

/-- What the gateway makes of an ENTER_ORDER of its first client. -/
def entered : RecvClientRequest where
  timeNanos := 1
  request :=
    { clientId := 1, clientOrderId := 1, price := 100, tickerId := 0, qty := 5,
      action := .new, type := .goodTillCancel, side := .buy,
      orderToken := Vector.replicate 14 65 }
  message := enterOrderMessage 0

/-- What the gateway makes of a REPLACE_ORDER of this order. -/
def replacement : RecvClientRequest where
  timeNanos := 2
  request :=
    { clientId := 1, clientOrderId := 1, newClientOrderId := 2, price := 100,
      tickerId := 0, qty := 3, action := .modify, type := .goodTillCancel,
      side := .buy, orderToken := Vector.replicate 14 67 }
  message := replaceOrderMessage 65 67 3

/-- The threads take one request from the socket to the streamer. -/
def oneRequest (x : RecvClientRequest) : List ThreadAction :=
  [.gateway, .gateway, .recv x, .recvFinished, .gateway, .gateway, .gateway,
    .engine, .engine, .engine, .engine, .engine,
    .publisher, .publisher, .publisher, .publisher, .streamer, .streamer,
    .gateway, .gateway]

/-- The order of a client comes to rest and is replaced; each datagram is heard
twice. -/
theorem threads_serve_clients_and_subscribers_example :
    ∃ (server : OrderServer)
      (p : Program (Except Fault (MatchingEngine MapLevels ScanPool)))
      (e : MatchingEngine MapLevels ScanPool) (heard : List (List UInt8)),
      OrderServer.run OuchLayout.packed Surroundings.roomy 16 16
        [.recv 7 (enterOrderMessage 0) 1,
          .recv 7 (replaceOrderMessage 65 67 3) 2] = .ok server ∧
      server.decoded = [entered, replacement] ∧
      p.threads.front.delivered.length = 2 ∧ heard.length = 4 ∧
      (∀ y ∈ p.threads.front.delivered,
        ∃ x ∈ server.decoded, x.request.Concerns y) ∧
      (Subscriber.listen (.mk 65 68 69 85 (by decide)) heard).seq = 2 ∧
      (Subscriber.listen (.mk 65 68 69 85 (by decide)) heard).Mirrors 4 e := by
  have hobserved : ((OrderServer.run OuchLayout.packed Surroundings.roomy 16 16
      [.recv 7 (enterOrderMessage 0) 1,
        .recv 7 (replaceOrderMessage 65 67 3) 2]).toOption.map
          OrderServer.decoded) = some [entered, replacement] := by
    decide +kernel
  obtain ⟨server, hserver, hdecoded⟩ := exists_of_toOption_map hobserved
  have hrun : ∃ (p : Program (Except Fault (MatchingEngine MapLevels ScanPool)))
      (e : MatchingEngine MapLevels ScanPool),
      Program.Reachable ⟨1, 1, 1, 1⟩ (MatchingEngine.mapProcessor 16)
        Surroundings.roomy.stdSort 10000 [entered, replacement] p ∧
      MatchingEngine.run MapLevels ScanPool 4 16 p.threads.front.accepted =
        .ok e ∧
      p.threads.Settled ∧
      p.threads.front.accepted = [entered.request, replacement.request] ∧
      p.threads.front.delivered.length = 2 ∧
      p.threads.back.published.length = 2 ∧ e.channel.updates.length = 2 :=
    ⟨_, _, Steps.of_follow
      (.gateway :: oneRequest entered ++ oneRequest replacement) rfl, rfl,
      ⟨rfl, rfl, rfl, rfl, rfl, nofun⟩, rfl, rfl, rfl, rfl⟩
  obtain ⟨p, e, hreach, he, hsettled, haccepted, hdelivered, hpublished,
    hupdates⟩ := hrun
  have hlen : p.threads.front.accepted.length < 2 ^ 63 := by
    rw [haccepted]
    decide
  have hwhole : MatchingEngine.EachStep MapLevels ScanPool 4 16
      OrderBook.Whole p.threads.front.accepted := by
    rw [haccepted]
    have hladder : Market.EachStep Ladder.Whole
        [entered.request, replacement.request] := by
      decide
    exact .of_ladder hladder _ (fun _ _ _ hrep => hrep.whole_iff.mpr)
      (by decide) (by decide) fun _ _ _ => trivial
  rw [← hdecoded] at hreach
  obtain ⟨-, hconcerns, -, hall⟩ := threads_serve_clients_and_subscribers
    (.mk 65 68 69 85 (by decide)) OuchLayout.packedFields Surroundings.roomy
    id (by decide) (by simp) hserver hreach hlen hwhole he
    (by rw [hupdates]; decide) fun d hd => (List.mem_append.mp hd).elim id id
  obtain ⟨hseq, hmirrors⟩ := hall (List.sublist_append_left _ _)
  refine ⟨server, p, e, _, hserver, hdecoded, hdelivered, ?_, hconcerns,
    hseq.trans hpublished, (hmirrors hsettled).2⟩
  rw [List.length_append, datagrams, List.length_mapIdx, hpublished]

end Program

end NanoExchange
