import NanoExchange.Gateway.Routing
import NanoExchange.Threads.EngineThread
import NanoExchange.Threads.Invariant

/-!
# Stopping the threads

`main` clears the flag of a thread and waits until it has exited, but a thread
tests its flag before every pop and leaves its loop with whatever is still in
its queue.  Nothing is lost if each thread happens to find its queue empty when
it leaves (`shutdown_loses_nothing`), and the engine is never stuck behind a
full response queue if the queue has room for all that is still to come when
the gateway leaves (`shutdown_never_wedges`).
-/

namespace NanoExchange

open Lib

namespace Pipeline

variable {σ : Type} {c : Capacities} {P : Processor σ} {S : StdSort}
variable {s s' : Pipeline σ}

section Draining

/-- The engine and the publisher leave their loops with an empty queue. -/
def LeavesDrained (s : Pipeline σ) : ThreadAction → Prop
  | .engine => s.phase = .test → s.main.engineRuns = false →
      s.front.requestQ = []
  | .publisher => s.back.publisherPhase = .test →
      s.main.publisherRuns = false → s.back.marketUpdateQ = []
  | _ => True

/-- A thread that has exited has left nothing in its queue. -/
structure NothingLeft (s : Pipeline σ) : Prop where
  requestQ : s.phase = .exited → s.front.requestQ = []
  marketUpdateQ : s.back.publisherPhase = .exited → s.back.marketUpdateQ = []

/-- Nothing is pushed to a queue once its reader has exited: then its writer
has exited before. -/
theorem NothingLeft.step
    {a : ThreadAction} (h : s.NothingLeft)
    (hinv : s.Consistent P ∧ s.Ordered) (hok : s.LeavesDrained a)
    (hstep : s.step c P S a = some s') :
    s'.NothingLeft := by
  obtain ⟨hconsistent, hordered⟩ := hinv
  have hfront : ∀ f : FrontEnd, s.front.phase ≠ .exited →
      ({ s with front := f } : Pipeline σ).NothingLeft := by
    intro f hne
    refine ⟨fun hexit => ?_, h.marketUpdateQ⟩
    exact absurd (hordered.joinGateway (hordered.engine hexit)) hne
  cases a with
  | main =>
      obtain ⟨m, rfl⟩ := mainThread_eq hstep
      exact ⟨h.requestQ, h.marketUpdateQ⟩
  | gateway =>
      obtain ⟨f, hf, rfl⟩ := Option.map_eq_some_iff.mp hstep
      exact hfront f (FrontEnd.gateway_ne_exited hf)
  | recv x =>
      obtain ⟨f, hf, rfl⟩ := Option.map_eq_some_iff.mp hstep
      exact hfront f (by simp [(FrontEnd.recv_phase hf).1])
  | recvFinished =>
      obtain ⟨f, hf, rfl⟩ := Option.map_eq_some_iff.mp hstep
      exact hfront f (by simp [(FrontEnd.recvFinished_phase hf).1])
  | engine =>
      have hcases := EngineStep.of_engine hstep
      cases hcases with
      | test hphase =>
          refine ⟨fun hexit => ?_, h.marketUpdateQ⟩
          cases hruns : s.main.engineRuns with
          | true => simp [hruns] at hexit
          | false => exact hok hphase hruns
      | idle hphase hq => exact ⟨(fun h => by cases h), h.marketUpdateQ⟩
      | begin r rest hphase hq => exact ⟨(fun h => by cases h), h.marketUpdateQ⟩
      | respond resp outs hphase hroom =>
          exact ⟨(fun h => by cases h), h.marketUpdateQ⟩
      | publish u outs hphase hroom =>
          refine ⟨(fun h => by cases h), fun hexit => ?_⟩
          have hexited := hordered.joinEngine (hordered.publisher hexit)
          rw [hphase] at hexited
          cases hexited
      | finish hphase => exact ⟨(fun h => by cases h), h.marketUpdateQ⟩
  | publisher =>
      obtain ⟨b, hb, rfl⟩ := Option.map_eq_some_iff.mp hstep
      refine ⟨h.requestQ, fun hexit => ?_⟩
      obtain ⟨hruns, hphase, rfl⟩ := BackEnd.publisher_exits hb hexit
      exact hok hphase hruns
  | streamer =>
      obtain ⟨b, hb, rfl⟩ := Option.map_eq_some_iff.mp hstep
      obtain ⟨hphase, hqueue, -⟩ := BackEnd.streamer_cases hb
      exact ⟨h.requestQ, hphase.symm ▸ hqueue.symm ▸ h.marketUpdateQ⟩

/-- **A shutdown loses nothing if each thread leaves an empty queue**: every
request that was pushed to the request queue has been processed, and every
update that was pushed to the market update queue has been published under its
sequence number. -/
theorem shutdown_loses_nothing
    {fifoPending : Nat}
    (hrun : ReachableBy c P S LeavesDrained fifoPending s)
    (hmain : s.main = .finished) :
    s.processed = s.front.accepted ∧
      s.back.published = numbered (s.sent.filterMap Output.update?) := by
  have hinit : (init P fifoPending).NothingLeft :=
    ⟨(fun h => by cases h), (fun h => by cases h)⟩
  obtain ⟨⟨hconsistent, hordered⟩, hleft⟩ := run_induction NothingLeft
    (fun s a s' hinv hok h hstep => h.step hinv hok hstep) hrun
    (init_invariants fifoPending) hinit
  have hengine := hordered.joinEngine (by rw [hmain]; rfl)
  have hpublisher := hordered.joinPublisher (by rw [hmain]; rfl)
  constructor
  · rw [hconsistent.queued, hleft.requestQ hengine, List.append_nil]
  · have hqueued := hconsistent.back.queued
    rw [hleft.marketUpdateQ hpublisher, List.append_nil] at hqueued
    rw [hconsistent.back.published, hqueued]
    simp only [BackEnd.out, hpublisher]

instance (s : Pipeline σ) : DecidablePred s.LeavesDrained
  | .engine => inferInstanceAs (Decidable (_ → _ → _))
  | .publisher => inferInstanceAs (Decidable (_ → _ → _))
  | .main | .gateway | .recv _ | .recvFinished | .streamer =>
      .isTrue trivial

/-- An order of the first client, as the gateway decodes it. -/
def firstOrder (type : OrderType) : MEClientRequest :=
  { MEClientRequest.blank 1 with
    clientOrderId := 1
    price := 100
    qty := 5
    type := type }

/-- The engine and the publisher have time to empty their queues. -/
theorem shutdown_loses_nothing_example :
    ∃ s, ReachableBy .ofMain (MatchingEngine.mapProcessor 16)
        Surroundings.roomy.stdSort LeavesDrained 10000 s ∧
      s.main = .finished ∧
      s.front.accepted = [firstOrder .goodTillCancel] ∧
      s.processed = s.front.accepted ∧
      s.back.published = numbered (s.sent.filterMap Output.update?) := by
  have hrun : ∃ s, ReachableBy .ofMain (MatchingEngine.mapProcessor 16)
      Surroundings.roomy.stdSort LeavesDrained 10000 s ∧
      s.main = .finished ∧
      s.front.accepted = [firstOrder .goodTillCancel] :=
    ⟨_, Steps.of_follow [.gateway, .gateway, .gateway,
      .recv ⟨1, firstOrder .goodTillCancel, []⟩, .recvFinished, .gateway,
      .gateway, .gateway, .engine, .engine, .engine, .engine, .engine,
      .publisher, .publisher, .publisher, .publisher, .main, .gateway, .main,
      .engine, .main, .publisher, .main, .streamer, .main] rfl, rfl, rfl⟩
  obtain ⟨s, hrun, hmain, haccepted⟩ := hrun
  exact ⟨s, hrun, hmain, haccepted, shutdown_loses_nothing hrun hmain⟩

/-- An order is pushed just before the shutdown begins, and the engine tests
its flag before it looks into its queue again. -/
theorem shutdown_drops_order :
    ∃ s, Reachable .ofMain (MatchingEngine.mapProcessor 65536)
        Surroundings.roomy.stdSort 10000 s ∧
      s.main = .finished ∧
      s.front.accepted = [firstOrder .goodTillCancel] ∧ s.processed = [] :=
  ⟨_, Steps.of_follow [.gateway, .gateway, .gateway,
    .recv ⟨1, firstOrder .goodTillCancel, []⟩, .recvFinished, .gateway,
    .gateway, .gateway, .main, .gateway, .main, .engine, .main, .publisher,
    .main, .streamer, .main] rfl, rfl, rfl, rfl⟩

end Draining

section Room

/-- The engine is inside `sendClientResponse` on a full queue, and the gateway,
which alone pops it, has exited. -/
structure Wedged (c : Capacities) (s : Pipeline σ) : Prop where
  exited : s.front.phase = .exited
  sending : ∃ resp outs, s.phase = .busy (.response resp :: outs)
  full : c.responseQ ≤ s.front.responseQ.length

/-- The requests that the engine has not begun. -/
def unbegun (s : Pipeline σ) : List MEClientRequest :=
  match s.phase with
  | .busy _ => s.front.requestQ.tail
  | _ => s.front.requestQ

/-- The responses that the engine has yet to push for the request in progress
and for those in its queue. -/
def backlog (P : Processor σ) (s : Pipeline σ) : List MEClientResponse :=
  (s.unsent ++ (P.run s.books s.unbegun).2).filterMap Output.response?

/-- The gateway leaves its loop only when the response queue has room for all
the responses to what it has pushed. -/
def LeavesRoom (c : Capacities) (P : Processor σ) (s : Pipeline σ) :
    ThreadAction → Prop
  | .gateway => s.front.phase = .test → s.main.gatewayRuns = false →
      s.front.responseQ.length + (s.backlog P).length ≤ c.responseQ
  | _ => True

/-- Once the gateway has exited, the response queue has room for all that is to
come. -/
def Roomy (c : Capacities) (P : Processor σ) (s : Pipeline σ) : Prop :=
  s.front.phase = .exited →
    s.front.responseQ.length + (s.backlog P).length ≤ c.responseQ

/-- What the engine has sent and what is to come stay the same together. -/
theorem backlog_engine (hstep : EngineStep c P s s') :
    s'.front.responseQ.length + (s'.backlog P).length =
      s.front.responseQ.length + (s.backlog P).length := by
  cases hstep with
  | test hphase =>
      cases hruns : s.main.engineRuns <;>
        simp [backlog, unsent, unbegun, hphase]
  | idle hphase hq => simp [backlog, unsent, unbegun, hphase]
  | begin r rest hphase hq =>
      simp [backlog, unsent, unbegun, hphase, hq, Processor.run]
  | respond resp outs hphase hroom =>
      simp [backlog, unsent, unbegun, hphase, Output.response?]
      omega
  | publish u outs hphase hroom =>
      simp [backlog, unsent, unbegun, hphase, Output.response?,
        List.filterMap_cons]
  | finish hphase => simp [backlog, unsent, unbegun, hphase]

/-- Nobody pushes to the request queue any more, and the engine keeps the
balance. -/
theorem Roomy.step
    {a : ThreadAction} (h : s.Roomy c P)
    (hinv : s.Consistent P ∧ s.Ordered) (hok : s.LeavesRoom c P a)
    (hstep : s.step c P S a = some s') :
    s'.Roomy c P := by
  cases a with
  | main =>
      obtain ⟨m, rfl⟩ := mainThread_eq hstep
      exact h
  | gateway =>
      obtain ⟨f, hf, rfl⟩ := Option.map_eq_some_iff.mp hstep
      intro hexit
      obtain ⟨hruns, hphase, rfl⟩ :=
        FrontEnd.gateway_exits hinv.1.fits hf hexit
      exact hok hphase hruns
  | recv x =>
      obtain ⟨f, hf, rfl⟩ := Option.map_eq_some_iff.mp hstep
      exact fun hexit => absurd hexit (FrontEnd.recv_phase hf).2
  | recvFinished =>
      obtain ⟨f, hf, rfl⟩ := Option.map_eq_some_iff.mp hstep
      exact fun hexit => absurd hexit (FrontEnd.recvFinished_phase hf).2
  | engine =>
      have hcases := EngineStep.of_engine hstep
      intro hexit
      rw [backlog_engine hcases]
      refine h ?_
      cases hcases <;> exact hexit
  | publisher =>
      obtain ⟨b, hb, rfl⟩ := Option.map_eq_some_iff.mp hstep
      exact h
  | streamer =>
      obtain ⟨b, hb, rfl⟩ := Option.map_eq_some_iff.mp hstep
      exact h

/-- **A shutdown never wedges the engine if the gateway leaves room**: in every
run in which the response queue has room for the responses to come whenever the
gateway leaves its loop, no state has the engine waiting for a full response
queue that nobody pops. -/
theorem shutdown_never_wedges
    {fifoPending : Nat}
    (hrun : ReachableBy c P S (LeavesRoom c P) fifoPending s) :
    ¬ s.Wedged c := by
  obtain ⟨-, hroomy⟩ := run_induction (Roomy c P)
    (fun s a s' hinv hok h hstep => h.step hinv hok hstep) hrun
    (init_invariants fifoPending) (fun h => by cases h)
  rintro ⟨hexit, ⟨resp, outs, hphase⟩, hfull⟩
  have hroom := hroomy hexit
  have hpos : 0 < (s.backlog P).length := by
    simp [backlog, unsent, hphase, Output.response?]
  omega

instance (s : Pipeline σ) : DecidablePred (s.LeavesRoom c P)
  | .gateway => inferInstanceAs (Decidable (_ → _ → _))
  | .main | .recv _ | .recvFinished | .engine | .publisher | .streamer =>
      .isTrue trivial

/-- The gateway leaves while one response is in the queue and another is to
come. -/
theorem shutdown_never_wedges_example :
    ∃ s, ReachableBy .ofMain (MatchingEngine.mapProcessor 16)
        Surroundings.roomy.stdSort
        (LeavesRoom .ofMain (MatchingEngine.mapProcessor 16)) 10000 s ∧
      s.main = .finished ∧ s.front.responseQ.length = 2 ∧
      ¬ s.Wedged .ofMain := by
  have hrun : ∃ s, ReachableBy .ofMain (MatchingEngine.mapProcessor 16)
      Surroundings.roomy.stdSort
      (LeavesRoom .ofMain (MatchingEngine.mapProcessor 16)) 10000 s ∧
      s.main = .finished ∧ s.front.responseQ.length = 2 :=
    ⟨_, Steps.of_follow [.gateway, .gateway, .gateway,
      .recv ⟨1, firstOrder .fillAndKill, []⟩, .recvFinished, .gateway,
      .gateway, .gateway, .engine, .engine, .engine, .main, .gateway, .engine,
      .engine, .main, .engine, .main, .publisher, .main, .streamer, .main]
      rfl, rfl, rfl⟩
  obtain ⟨s, hrun, hmain, hlen⟩ := hrun
  exact ⟨s, hrun, hmain, hlen, shutdown_never_wedges hrun⟩

end Room

section Wedge

/-- The state in which the gateway has pushed `q` and no other thread has taken
a step. -/
def filled (P : Processor σ) (fifoPending : Nat) (q : List MEClientRequest) :
    Pipeline σ :=
  { init P fifoPending with
    front := { fifo := .init fifoPending, requestQ := q, accepted := q } }

/-- The gateway receives one request in a turn of its loop, and pushes it. -/
theorem filled_push
    (fifoPending : Nat) {q : List MEClientRequest}
    (hroom : q.length < c.requestQ) (r : MEClientRequest) :
    Steps (step c P S) (fun _ _ => True) (filled P fifoPending q)
      (filled P fifoPending (q ++ [r])) := by
  let x : RecvClientRequest := ⟨0, r, []⟩
  let empty : FifoNdProcess := .init fifoPending
  let received : FrontEnd :=
    { phase := .receive
      fifo := { empty with pending := [x], pendingSorted := false }
      requestQ := q
      accepted := q }
  let sorted : FrontEnd :=
    { received with
      phase := .publish none
      fifo := { empty with pending := [x], pendingSorted := true } }
  have hrecv : step c P S { filled P fifoPending q with
        front := { received with fifo := empty } } (.recv x) =
      some { filled P fifoPending q with front := received } := by
    have hadd : empty.addToPending x = some received.fifo :=
      if_neg (Nat.not_le.mpr (FifoNdProcess.Fits.init fifoPending).positive)
    simp [step, FrontEnd.recv, received, hadd]
  have hsort : step c P S { filled P fifoPending q with front := received }
        .recvFinished =
      some { filled P fifoPending q with front := sorted } := by
    have hsingle : S.sort [x] = [x] := List.perm_singleton.mp (S.perm [x])
    simp [step, FrontEnd.recvFinished, FrontEnd.startPublish,
      FifoNdProcess.sortPending, FifoNdProcess.ordered, received, sorted,
      hsingle]
  have hpush : step c P S { filled P fifoPending q with front := sorted }
        .gateway =
      some { filled P fifoPending q with
        front := { sorted with
          fifo := empty
          requestQ := q ++ [r]
          accepted := q ++ [r] } } := by
    simp [step, FrontEnd.gateway, sorted, received, hroom, x]
    rfl
  refine .head (a := .gateway) trivial rfl ?_
  refine .head (a := .gateway) trivial rfl ?_
  refine .head (a := .gateway) trivial rfl ?_
  refine .head (a := .recv x) trivial hrecv ?_
  refine .head (a := .recvFinished) trivial hsort ?_
  refine .head (a := .gateway) trivial hpush ?_
  refine .head (a := .gateway) trivial rfl ?_
  exact .single (a := .gateway) trivial rfl

theorem filled_reachable
    (fifoPending : Nat) {q : List MEClientRequest}
    (hroom : q.length ≤ c.requestQ) :
    Reachable c P S fifoPending (filled P fifoPending q) := by
  induction q using List.reverseRecOn with
  | nil => exact Steps.refl _
  | append_singleton q r ih =>
      rw [List.length_append, List.length_singleton] at hroom
      exact (ih (Nat.le_of_succ_le hroom)).trans
        (filled_push fifoPending hroom r)

/-- The engine sends responses while there is room. -/
theorem engine_sends
    {resps : List MEClientResponse} {outs : List Output}
    (hphase : s.phase = .busy (resps.map Output.response ++ outs))
    (hroom : s.front.responseQ.length + resps.length ≤ c.responseQ) :
    Steps (step c P S) (fun _ _ => True) s
      { s with
        front := { s.front with responseQ := s.front.responseQ ++ resps }
        phase := .busy outs
        sent := s.sent ++ resps.map Output.response } := by
  induction resps generalizing s with
  | nil =>
      simp only [List.map_nil, List.nil_append] at hphase
      simp only [List.map_nil, List.append_nil, ← hphase]
      exact Steps.refl s
  | cons resp resps ih =>
      rw [List.length_cons] at hroom
      have hfirst : s.engine c P = some
          { s with
            front := { s.front with responseQ := s.front.responseQ ++ [resp] }
            phase := .busy (resps.map Output.response ++ outs)
            sent := s.sent ++ [.response resp] } := by
        unfold engine
        rw [hphase]
        exact if_pos (by omega)
      refine .head (a := .engine) trivial hfirst ?_
      have hrest := ih (s := { s with
        front := { s.front with responseQ := s.front.responseQ ++ [resp] }
        phase := .busy (resps.map Output.response ++ outs)
        sent := s.sent ++ [.response resp] }) rfl (by simp; omega)
      simpa using hrest

/-- The engine handles the requests `rs` of its queue, which it answers with
the responses `resps` and no update. -/
theorem engine_handles
    {rs : List MEClientRequest} (rest : List MEClientRequest)
    (resps : List MEClientResponse) {b : σ}
    (hphase : s.phase = .test) (hruns : s.main.engineRuns = true)
    (hq : s.front.requestQ = rs ++ rest)
    (hprocess : P.run s.books rs = (b, resps.map Output.response))
    (hroom : s.front.responseQ.length + resps.length ≤ c.responseQ) :
    Steps (step c P S) (fun _ _ => True) s
      { s with
        front := { s.front with
          requestQ := rest
          responseQ := s.front.responseQ ++ resps }
        books := b
        processed := s.processed ++ rs
        sent := s.sent ++ resps.map Output.response } := by
  induction rs generalizing s resps with
  | nil =>
      obtain ⟨rfl, hresps⟩ := Prod.mk.inj hprocess
      obtain rfl := List.map_eq_nil_iff.mp hresps.symm
      simp only [List.map_nil, List.append_nil, List.nil_append] at hq ⊢
      rw [← hq]
      exact Steps.refl s
  | cons r rs ih =>
      obtain ⟨hlast, hsplit⟩ := Prod.mk.inj hprocess
      obtain ⟨resps₁, resps₂, rfl, hfirst, hothers⟩ :=
        List.map_eq_append_iff.mp hsplit.symm
      rw [List.length_append] at hroom
      let polling : Pipeline σ := { s with phase := .poll }
      let sending : Pipeline σ :=
        { s with
          books := (P.process s.books r).1
          phase := .busy (resps₁.map Output.response ++ []) }
      let sent : Pipeline σ :=
        { sending with
          front := { s.front with responseQ := s.front.responseQ ++ resps₁ }
          phase := .busy []
          sent := s.sent ++ resps₁.map Output.response }
      let finished : Pipeline σ :=
        { sent with
          front := { sent.front with requestQ := rs ++ rest }
          phase := .test
          processed := s.processed ++ [r] }
      have hpoll : s.engine c P = some polling := by
        simp [engine, hphase, hruns, polling]
      have hbegin : polling.engine c P = some sending := by
        simp [engine, polling, sending, hq, hfirst]
      have hsend : Steps (step c P S) (fun _ _ => True) sending sent :=
        engine_sends rfl (by simp only [sending]; omega)
      have hfinish : sent.engine c P = some finished := by
        simp [engine, sent, sending, finished, hq]
      have hrest := ih resps₂ (s := finished) rfl hruns rfl
        (Prod.ext hlast hothers.symm) (by simp [finished, sent]; omega)
      refine .head (a := .engine) trivial hpoll ?_
      refine .head (a := .engine) trivial hbegin ?_
      refine hsend.trans ?_
      refine .head (a := .engine) trivial hfinish ?_
      simpa [finished, sent, sending, ← hphase] using hrest

/-- **How a shutdown wedges the engine**: the gateway exits after it has pushed
requests whose responses are one more than the response queue holds. -/
theorem wedged_reachable
    (fifoPending : Nat) {rs : List MEClientRequest} {r : MEClientRequest}
    {resps : List MEClientResponse} {resp : MEClientResponse} {b : σ}
    {outs : List Output}
    (hprocess : P.run P.start rs = (b, resps.map Output.response))
    (hlast : (P.process b r).2 = .response resp :: outs)
    (hfull : resps.length = c.responseQ) (hroom : rs.length < c.requestQ) :
    ∃ s, Reachable c P S fifoPending s ∧ s.Wedged c := by
  let stopped : Pipeline σ :=
    { filled P fifoPending (rs ++ [r]) with
      main := .stopGateway
      front := { (filled P fifoPending (rs ++ [r])).front with
        phase := .exited } }
  have hfill : Reachable c P S fifoPending stopped :=
    (filled_reachable fifoPending (by simp; omega)).trans
      (.head (a := .main) trivial rfl (.single (a := .gateway) trivial rfl))
  have hhandle := engine_handles (c := c) (S := S) (s := stopped) [r] resps
    rfl rfl rfl hprocess (by simp [stopped, filled, hfull])
  refine ⟨_, hfill.trans (hhandle.trans (.head (a := .engine) trivial rfl
    (.single (a := .engine) trivial rfl))), rfl, ⟨resp, outs, ?_⟩, ?_⟩
  · show EnginePhase.busy (P.process b r).2 = _
    rw [hlast]
  · show c.responseQ ≤ ([] ++ resps).length
    rw [List.nil_append, hfull]

/-- The owner of an order asks for a cancel of it. -/
def cancelFirst : MEClientRequest :=
  { MEClientRequest.blank 1 with
    action := .cancel
    clientOrderId := 1 }

/-- An order that is dropped at once is followed by cancels of it, each of which
is rejected; then the gateway exits. -/
theorem shutdown_wedges_engine :
    ∃ s, Reachable .ofMain (MatchingEngine.mapProcessor 65536)
        Surroundings.roomy.stdSort 10000 s ∧ s.Wedged .ofMain := by
  let P := MatchingEngine.mapProcessor 65536
  let b := (P.process P.start (firstOrder .fillAndKill)).1
  obtain ⟨dropped, hlen, hfirst⟩ :
      ∃ resps : List MEClientResponse, resps.length = 2 ∧
        P.process P.start (firstOrder .fillAndKill) =
          (b, resps.map Output.response) :=
    ⟨[_, _], rfl, rfl⟩
  obtain ⟨rejected, hcancel⟩ : ∃ resp : MEClientResponse,
      P.process b cancelFirst = (b, [Output.response resp]) :=
    ⟨_, rfl⟩
  have hrun : P.run P.start
      (firstOrder .fillAndKill :: List.replicate 65533 cancelFirst) =
      (b, (dropped ++ List.replicate 65533 rejected).map Output.response) := by
    simp only [Processor.run, hfirst, P.run_replicate hcancel,
      List.flatten_replicate_singleton, List.map_append, List.map_replicate]
  refine wedged_reachable 10000 hrun (congrArg Prod.snd hcancel) ?_ ?_
  · rw [List.length_append, hlen, List.length_replicate]
    rfl
  · rw [List.length_cons, List.length_replicate]
    decide

end Wedge

end Pipeline

end NanoExchange
