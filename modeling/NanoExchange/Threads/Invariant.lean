import NanoExchange.Threads.Pipeline

/-!
# The invariants of the threads

`Consistent` holds of every reachable state: nothing is lost or made up between
the queues.  `Ordered` says which threads have exited when `main` has got how
far: a thread exits only after its flag has been cleared, and `main` goes on
only after the thread has exited.
-/

namespace NanoExchange

open Lib

namespace Processor

variable {σ : Type} (P : Processor σ)

theorem run_incremental (s : σ) (rs : List MEClientRequest) :
    ∀ u ∈ (P.run s rs).2.filterMap Output.update?, u.type.Incremental := by
  induction rs generalizing s with
  | nil => simp [run]
  | cons r rs ih =>
      intro u hu
      simp only [run, List.filterMap_append, List.mem_append] at hu
      rcases hu with hu | hu
      · obtain ⟨o, ho, hou⟩ := List.mem_filterMap.mp hu
        cases o with
        | response resp => simp [Output.update?] at hou
        | update u' =>
            obtain rfl := Option.some.inj hou
            exact P.incremental s r _ ho
      · exact ih _ u hu

end Processor

namespace FrontEnd

variable {S : StdSort} {capacity : Nat} {run : Bool} {f f' : FrontEnd}

/-- The gateway exits where it tests its flag, once that is cleared. -/
theorem gateway_exits
    (hfits : f.fifo.Fits) (hstep : f.gateway S capacity run = some f')
    (hexit : f'.phase = .exited) :
    run = false ∧ f.phase = .test ∧ f' = { f with phase := .exited } := by
  unfold gateway at hstep
  cases hphase : f.phase with
  | test =>
      simp only [hphase, Option.some.injEq] at hstep
      subst hstep
      cases run with
      | true => cases hexit
      | false => exact ⟨rfl, rfl, rfl⟩
  | drain =>
      simp only [hphase] at hstep
      split at hstep <;> cases hstep <;> cases hexit
  | publish held =>
      obtain ⟨f₁, hf₁, -, hreceive, -⟩ := Moves.finishPublish hfits hphase
      simp only [hphase, hf₁] at hstep
      split at hstep
      · cases hstep
        exact absurd (hreceive.symm.trans hexit) nofun
      · split_ifs at hstep <;> cases hstep
        · cases hexit
        · exact absurd (hreceive.symm.trans hexit) nofun
  | receive =>
      simp only [hphase, Option.some.injEq] at hstep
      subst hstep
      cases hexit
  | exited => simp only [hphase, reduceCtorEq] at hstep

/-- A thread that has exited takes no more steps. -/
theorem gateway_ne_exited (hstep : f.gateway S capacity run = some f') :
    f.phase ≠ .exited := by
  intro hphase
  simp only [gateway, hphase, reduceCtorEq] at hstep

/-- The server only calls back while the gateway is in it. -/
theorem recv_phase {x : RecvClientRequest} (hstep : f.recv S x = some f') :
    f.phase = .receive ∧ f'.phase ≠ .exited := by
  unfold recv at hstep
  split at hstep
  · rename_i hphase
    split at hstep <;> cases hstep
    · exact ⟨hphase, by simp [hphase]⟩
    · exact ⟨hphase, by simp [startPublish]⟩
  · cases hstep

theorem recvFinished_phase (hstep : f.recvFinished S = some f') :
    f.phase = .receive ∧ f'.phase ≠ .exited := by
  unfold recvFinished at hstep
  split at hstep
  · rename_i hphase
    cases hstep
    exact ⟨hphase, by simp [startPublish]⟩
  · cases hstep

end FrontEnd

namespace BackEnd

variable {capacity : Nat} {run : Bool} {b b' : BackEnd}

theorem publisher_exits
    (hstep : b.publisher capacity run = some b')
    (hexit : b'.publisherPhase = .exited) :
    run = false ∧ b.publisherPhase = .test ∧
      b' = { b with publisherPhase := .exited } := by
  unfold publisher at hstep
  cases hphase : b.publisherPhase with
  | test =>
      simp only [hphase, Option.some.injEq] at hstep
      subst hstep
      cases run with
      | true => cases hexit
      | false => exact ⟨rfl, rfl, rfl⟩
  | poll =>
      simp only [hphase] at hstep
      split at hstep
      · cases hstep
        cases hexit
      · split_ifs at hstep <;> cases hstep <;> cases hexit
  | push snap =>
      simp only [hphase] at hstep
      split_ifs at hstep
      cases hstep
      cases hexit
  | advance =>
      simp only [hphase, Option.some.injEq] at hstep
      subst hstep
      cases hexit
  | exited => simp only [hphase, reduceCtorEq] at hstep

theorem publisher_ne_exited (hstep : b.publisher capacity run = some b') :
    b.publisherPhase ≠ .exited := by
  intro hphase
  simp only [publisher, hphase, reduceCtorEq] at hstep

/-- The publisher leaves the streamer's phase alone. -/
theorem publisher_streamerPhase (hstep : b.publisher capacity run = some b') :
    b'.streamerPhase = b.streamerPhase := by
  unfold publisher at hstep
  split at hstep
  · cases hstep
    rfl
  · split at hstep
    · cases hstep
      rfl
    · split_ifs at hstep <;> cases hstep <;> rfl
  · split_ifs at hstep
    cases hstep
    rfl
  · cases hstep
    rfl
  · cases hstep

/-- What a step of the streamer can do. -/
theorem streamer_cases (hstep : b.streamer run = some b') :
    b'.publisherPhase = b.publisherPhase ∧
      b'.marketUpdateQ = b.marketUpdateQ ∧
      (b'.streamerPhase = .exited → run = false) := by
  unfold streamer at hstep
  cases hphase : b.streamerPhase with
  | test =>
      simp only [hphase, Option.some.injEq] at hstep
      subst hstep
      cases run with
      | true => exact ⟨rfl, rfl, nofun⟩
      | false => exact ⟨rfl, rfl, fun _ => rfl⟩
  | drain =>
      simp only [hphase] at hstep
      split at hstep <;> cases hstep
      · exact ⟨rfl, rfl, nofun⟩
      · exact ⟨rfl, rfl, nofun⟩
  | exited => simp only [hphase, reduceCtorEq] at hstep

end BackEnd

namespace Pipeline

variable {σ : Type} {c : Capacities} {P : Processor σ} {S : StdSort}
variable {s s' : Pipeline σ}

/-- **What a step of the engine can do.** -/
inductive EngineStep (c : Capacities) (P : Processor σ) (s : Pipeline σ) :
    Pipeline σ → Prop
  | test (hphase : s.phase = .test) :
      EngineStep c P s
        { s with phase := if s.main.engineRuns then .poll else .exited }
  | idle (hphase : s.phase = .poll) (hq : s.front.requestQ = []) :
      EngineStep c P s { s with phase := .test }
  | begin (r : MEClientRequest) (rest : List MEClientRequest)
      (hphase : s.phase = .poll) (hq : s.front.requestQ = r :: rest) :
      EngineStep c P s { s with
        books := (P.process s.books r).1
        phase := .busy (P.process s.books r).2 }
  | respond (resp : MEClientResponse) (outs : List Output)
      (hphase : s.phase = .busy (.response resp :: outs))
      (hroom : s.front.responseQ.length < c.responseQ) :
      EngineStep c P s { s with
        front := { s.front with responseQ := s.front.responseQ ++ [resp] }
        phase := .busy outs
        sent := s.sent ++ [.response resp] }
  | publish (u : MEMarketUpdate) (outs : List Output)
      (hphase : s.phase = .busy (.update u :: outs))
      (hroom : s.back.marketUpdateQ.length < c.marketUpdateQ) :
      EngineStep c P s { s with
        back := { s.back with marketUpdateQ := s.back.marketUpdateQ ++ [u] }
        phase := .busy outs
        sent := s.sent ++ [.update u] }
  | finish (hphase : s.phase = .busy []) :
      EngineStep c P s { s with
        front := { s.front with requestQ := s.front.requestQ.tail }
        phase := .test
        processed := s.processed ++ s.front.requestQ.take 1 }

theorem EngineStep.of_engine (hstep : s.engine c P = some s') :
    EngineStep c P s s' := by
  unfold engine at hstep
  split at hstep
  · rename_i hphase
    cases hstep
    exact .test hphase
  · rename_i hphase
    split at hstep <;> rename_i hq <;> cases hstep
    · exact .idle hphase hq
    · exact .begin _ _ hphase hq
  · rename_i hphase
    split_ifs at hstep with hroom
    cases hstep
    exact .respond _ _ hphase hroom
  · rename_i hphase
    split_ifs at hstep with hroom
    cases hstep
    exact .publish _ _ hphase hroom
  · rename_i hphase
    cases hstep
    exact .finish hphase
  · cases hstep

/-- The main thread changes nothing but its own phase. -/
theorem mainThread_eq (hstep : s.mainThread = some s') :
    ∃ m, { s with main := m } = s' := by
  unfold mainThread at hstep
  cases hmain : s.main with
  | running =>
      simp only [hmain] at hstep
      exact ⟨_, Option.some.inj hstep⟩
  | finished => simp only [hmain, reduceCtorEq] at hstep
  | stopGateway | stopEngine | stopPublisher | stopStreamer =>
      simp only [hmain] at hstep
      split_ifs at hstep
      exact ⟨_, Option.some.inj hstep⟩

namespace Consistent

theorem init (fifoPending : Nat) :
    (Pipeline.init P fifoPending).Consistent P where
  queued := rfl
  busy := nofun
  history := rfl
  responses := rfl
  back := .init
  fits := .init fifoPending

/-- The gateway or its server works on the front end. -/
theorem front
    (h : s.Consistent P) {f : FrontEnd} {l : List MEClientRequest}
    (hrequestQ : f.requestQ = s.front.requestQ ++ l)
    (haccepted : f.accepted = s.front.accepted ++ l)
    (hresponses : f.delivered ++ f.responseQ =
      s.front.delivered ++ s.front.responseQ)
    (hfits : f.fifo.Fits) :
    Consistent P { s with front := f } where
  queued := by
    rw [haccepted, h.queued, hrequestQ, List.append_assoc]
  busy outs hphase := by
    have hne := h.busy outs hphase
    simp [hrequestQ, hne]
  history := by
    have hsame : ({ s with front := f } : Pipeline σ).inProgress =
        s.inProgress := by
      cases hphase : s.phase with
      | busy outs =>
          have hlen := List.length_pos_iff.mpr (h.busy outs hphase)
          simp only [inProgress, hphase, hrequestQ,
            List.take_append_of_le_length hlen]
      | _ => simp only [inProgress, hphase]
    rw [hsame]
    exact h.history
  responses := hresponses.trans h.responses
  back := h.back
  fits := hfits

theorem of_moves
    (h : s.Consistent P) {f : FrontEnd} (hf : s.front.Moves f) :
    Consistent P { s with front := f } := by
  obtain ⟨l, hrequestQ, haccepted, -⟩ := hf.forwards
  exact h.front hrequestQ haccepted hf.responses hf.fits

/-- The server hands over a request. -/
theorem recv
    (h : s.Consistent P) {x : RecvClientRequest} {f : FrontEnd}
    (hstep : s.front.recv S x = some f) :
    Consistent P { s with front := f } := by
  have hfifo : f.requestQ = s.front.requestQ ∧
      f.accepted = s.front.accepted ∧
      f.delivered ++ f.responseQ = s.front.delivered ++ s.front.responseQ ∧
      f.fifo.Fits := by
    unfold FrontEnd.recv at hstep
    split at hstep
    · cases hadd : s.front.fifo.addToPending x with
      | some fifo =>
          simp only [hadd, Option.some.injEq] at hstep
          exact hstep ▸ ⟨rfl, rfl, rfl, (h.fits.add hadd).1⟩
      | none =>
          simp only [hadd, Option.some.injEq] at hstep
          exact hstep ▸ ⟨rfl, rfl, rfl, h.fits.sortPending S⟩
    · cases hstep
  obtain ⟨hrequestQ, haccepted, hresponses, hfits⟩ := hfifo
  exact h.front (l := []) (by rw [hrequestQ, List.append_nil])
    (by rw [haccepted, List.append_nil]) hresponses hfits

theorem recvFinished
    (h : s.Consistent P) {f : FrontEnd}
    (hstep : s.front.recvFinished S = some f) :
    Consistent P { s with front := f } := by
  unfold FrontEnd.recvFinished at hstep
  split at hstep
  · rename_i hphase
    cases hstep
    exact h.of_moves (.startPublish S h.fits (by simp [FrontEnd.held, hphase]))
  · cases hstep

theorem engine (h : s.Consistent P) (hstep : EngineStep c P s s') :
    s'.Consistent P := by
  obtain ⟨hqueued, hbusy, hhistory, hresponses, hback, hfits⟩ := h
  cases hstep with
  | test hphase =>
      simp only [inProgress, unsent, hphase] at hhistory
      cases hruns : s.main.engineRuns <;>
        exact ⟨hqueued, nofun, hhistory, hresponses, hback, hfits⟩
  | idle hphase hq =>
      simp only [inProgress, unsent, hphase] at hhistory
      exact ⟨hqueued, nofun, hhistory, hresponses, hback, hfits⟩
  | begin r rest hphase hq =>
      simp only [inProgress, unsent, hphase, List.append_nil] at hhistory
      refine ⟨hqueued, fun _ _ => ?_, ?_, hresponses, hback, hfits⟩
      · rw [hq]
        exact List.cons_ne_nil _ _
      · show P.run P.start (s.processed ++ s.front.requestQ.take 1) = _
        rw [hq, List.take_succ_cons, List.take_zero, P.run_append_singleton,
          hhistory]
        rfl
  | respond resp outs hphase hroom =>
      simp only [inProgress, unsent, hphase] at hhistory
      refine ⟨hqueued, fun _ _ => hbusy _ hphase, ?_, ?_, ?_, hfits⟩
      · show P.run P.start (s.processed ++ s.front.requestQ.take 1) =
          (s.books, s.sent ++ [.response resp] ++ outs)
        rw [hhistory, List.append_assoc]
        rfl
      · show s.front.delivered ++ (s.front.responseQ ++ [resp]) = _
        rw [← List.append_assoc, hresponses, List.filterMap_append]
        rfl
      · rw [List.filterMap_append]
        exact (List.append_nil _).symm ▸ hback
  | publish u outs hphase hroom =>
      have hsent := P.run_incremental P.start (s.processed ++ s.inProgress)
      rw [hhistory] at hsent
      have hu : u.type.Incremental :=
        hsent u (by simp [unsent, hphase, Output.update?])
      simp only [inProgress, unsent, hphase] at hhistory
      refine ⟨hqueued, fun _ _ => hbusy _ hphase, ?_, ?_, ?_, hfits⟩
      · show P.run P.start (s.processed ++ s.front.requestQ.take 1) =
          (s.books, s.sent ++ [.update u] ++ outs)
        rw [hhistory, List.append_assoc]
        rfl
      · rw [hresponses]
        simp [Output.response?]
      · simpa [Output.update?] using hback.push hu
  | finish hphase =>
      have hne := hbusy _ hphase
      obtain ⟨r, rest, hq⟩ := List.exists_cons_of_ne_nil hne
      simp only [inProgress, unsent, hphase] at hhistory
      refine ⟨?_, nofun, ?_, hresponses, hback, hfits⟩
      · rw [hqueued, hq]
        simp
      · show P.run P.start (s.processed ++ s.front.requestQ.take 1 ++ []) = _
        rw [List.append_nil, hhistory]
        rfl

theorem main (h : s.Consistent P) (m : MainPhase) :
    Consistent P { s with main := m } :=
  ⟨h.queued, h.busy, h.history, h.responses, h.back, h.fits⟩

theorem back_step
    (h : s.Consistent P) {b : BackEnd}
    (hb : b.Serves (s.sent.filterMap Output.update?)) :
    Consistent P { s with back := b } :=
  ⟨h.queued, h.busy, h.history, h.responses, hb, h.fits⟩

theorem step
    {a : ThreadAction} (h : s.Consistent P)
    (hstep : s.step c P S a = some s') :
    s'.Consistent P := by
  cases a with
  | main =>
      obtain ⟨m, rfl⟩ := mainThread_eq hstep
      exact h.main m
  | gateway =>
      obtain ⟨f, hf, rfl⟩ := Option.map_eq_some_iff.mp hstep
      exact h.of_moves (.gateway h.fits hf)
  | recv x =>
      obtain ⟨f, hf, rfl⟩ := Option.map_eq_some_iff.mp hstep
      exact h.recv hf
  | recvFinished =>
      obtain ⟨f, hf, rfl⟩ := Option.map_eq_some_iff.mp hstep
      exact h.recvFinished hf
  | engine => exact h.engine (.of_engine hstep)
  | publisher =>
      obtain ⟨b, hb, rfl⟩ := Option.map_eq_some_iff.mp hstep
      exact h.back_step (h.back.publisher hb)
  | streamer =>
      obtain ⟨b, hb, rfl⟩ := Option.map_eq_some_iff.mp hstep
      exact h.back_step (h.back.streamer hb)

end Consistent

/-- **The threads stop one after the other**: a thread exits only after its
flag is cleared, and `main` goes on only when it has exited. -/
structure Ordered (s : Pipeline σ) : Prop where
  gateway : s.front.phase = .exited → s.main.gatewayRuns = false
  engine : s.phase = .exited → s.main.engineRuns = false
  publisher : s.back.publisherPhase = .exited → s.main.publisherRuns = false
  streamer : s.back.streamerPhase = .exited → s.main.streamerRuns = false
  joinGateway : s.main.engineRuns = false → s.front.phase = .exited
  joinEngine : s.main.publisherRuns = false → s.phase = .exited
  joinPublisher : s.main.streamerRuns = false →
    s.back.publisherPhase = .exited

namespace Ordered

theorem init (fifoPending : Nat) : (Pipeline.init P fifoPending).Ordered := by
  constructor <;> exact fun h => by cases h

/-- The gateway or its server works on the front end. -/
theorem front
    (h : s.Ordered) {f : FrontEnd} (hne : s.front.phase ≠ .exited)
    (hexit : f.phase = .exited → s.main.gatewayRuns = false) :
    Ordered { s with front := f } where
  gateway := hexit
  engine := h.engine
  publisher := h.publisher
  streamer := h.streamer
  joinGateway hruns := absurd (h.joinGateway hruns) hne
  joinEngine := h.joinEngine
  joinPublisher := h.joinPublisher

theorem main (h : s.Ordered) (hstep : s.mainThread = some s') :
    s'.Ordered := by
  obtain ⟨hgateway, hengine, hpublisher, hstreamer, hjoinGateway, hjoinEngine,
    hjoinPublisher⟩ := h
  unfold mainThread at hstep
  cases hmain : s.main with
  | running =>
      simp only [hmain] at hstep hengine hpublisher hstreamer
      cases hstep
      exact ⟨fun _ => rfl, hengine, hpublisher, hstreamer,
        (fun h => by cases h), (fun h => by cases h), (fun h => by cases h)⟩
  | stopGateway =>
      simp only [hmain] at hstep hpublisher hstreamer
      split_ifs at hstep with hexited
      cases hstep
      exact ⟨fun _ => rfl, fun _ => rfl, hpublisher, hstreamer,
        fun _ => hexited, (fun h => by cases h), (fun h => by cases h)⟩
  | stopEngine =>
      simp only [hmain] at hstep hstreamer hjoinGateway
      split_ifs at hstep with hexited
      cases hstep
      exact ⟨fun _ => rfl, fun _ => rfl, fun _ => rfl, hstreamer,
        hjoinGateway, fun _ => hexited, (fun h => by cases h)⟩
  | stopPublisher =>
      simp only [hmain] at hstep hjoinGateway hjoinEngine
      split_ifs at hstep with hexited
      cases hstep
      exact ⟨fun _ => rfl, fun _ => rfl, fun _ => rfl, fun _ => rfl,
        hjoinGateway, hjoinEngine, fun _ => hexited⟩
  | stopStreamer =>
      simp only [hmain] at hstep hjoinGateway hjoinEngine hjoinPublisher
      split_ifs at hstep
      cases hstep
      exact ⟨fun _ => rfl, fun _ => rfl, fun _ => rfl, fun _ => rfl,
        hjoinGateway, hjoinEngine, hjoinPublisher⟩
  | finished => simp only [hmain, reduceCtorEq] at hstep

/-- The engine works, and has not exited before. -/
theorem of_engine
    (h : s.Ordered) (hne : s.phase ≠ .exited) (hmain : s'.main = s.main)
    (hfront : s'.front.phase = s.front.phase)
    (hpublisher : s'.back.publisherPhase = s.back.publisherPhase)
    (hstreamer : s'.back.streamerPhase = s.back.streamerPhase)
    (hexit : s'.phase = .exited → s.main.engineRuns = false) :
    s'.Ordered where
  gateway := hmain ▸ hfront ▸ h.gateway
  engine := hmain ▸ hexit
  publisher := hmain ▸ hpublisher ▸ h.publisher
  streamer := hmain ▸ hstreamer ▸ h.streamer
  joinGateway := hmain ▸ hfront ▸ h.joinGateway
  joinEngine hruns := absurd (h.joinEngine (hmain ▸ hruns)) hne
  joinPublisher := hmain ▸ hpublisher ▸ h.joinPublisher

theorem engineStep (h : s.Ordered) (hstep : EngineStep c P s s') :
    s'.Ordered := by
  cases hstep with
  | test hphase =>
      refine h.of_engine (by simp [hphase]) rfl rfl rfl rfl fun hexit => ?_
      cases hruns : s.main.engineRuns with
      | true => simp [hruns] at hexit
      | false => rfl
  | idle hphase hq =>
      exact h.of_engine (by simp [hphase]) rfl rfl rfl rfl fun h => by cases h
  | begin r rest hphase hq =>
      exact h.of_engine (by simp [hphase]) rfl rfl rfl rfl fun h => by cases h
  | respond resp outs hphase hroom =>
      exact h.of_engine (by simp [hphase]) rfl rfl rfl rfl fun h => by cases h
  | publish u outs hphase hroom =>
      exact h.of_engine (by simp [hphase]) rfl rfl rfl rfl fun h => by cases h
  | finish hphase =>
      exact h.of_engine (by simp [hphase]) rfl rfl rfl rfl fun h => by cases h

theorem step
    {a : ThreadAction} (h : s.Ordered) (hfits : s.front.fifo.Fits)
    (hstep : s.step c P S a = some s') :
    s'.Ordered := by
  cases a with
  | main => exact h.main hstep
  | gateway =>
      obtain ⟨f, hf, rfl⟩ := Option.map_eq_some_iff.mp hstep
      exact h.front (FrontEnd.gateway_ne_exited hf)
        fun hexit => (FrontEnd.gateway_exits hfits hf hexit).1
  | recv x =>
      obtain ⟨f, hf, rfl⟩ := Option.map_eq_some_iff.mp hstep
      obtain ⟨hphase, hne⟩ := FrontEnd.recv_phase hf
      exact h.front (by simp [hphase]) fun hexit => absurd hexit hne
  | recvFinished =>
      obtain ⟨f, hf, rfl⟩ := Option.map_eq_some_iff.mp hstep
      obtain ⟨hphase, hne⟩ := FrontEnd.recvFinished_phase hf
      exact h.front (by simp [hphase]) fun hexit => absurd hexit hne
  | engine => exact h.engineStep (.of_engine hstep)
  | publisher =>
      obtain ⟨b, hb, rfl⟩ := Option.map_eq_some_iff.mp hstep
      exact { h with
        publisher := fun hexit => (BackEnd.publisher_exits hb hexit).1
        streamer := (BackEnd.publisher_streamerPhase hb).symm ▸ h.streamer
        joinPublisher := fun hruns =>
          absurd (h.joinPublisher hruns) (BackEnd.publisher_ne_exited hb) }
  | streamer =>
      obtain ⟨b, hb, rfl⟩ := Option.map_eq_some_iff.mp hstep
      obtain ⟨hphase, -, hexit⟩ := BackEnd.streamer_cases hb
      exact { h with
        publisher := hphase.symm ▸ h.publisher
        streamer := hexit
        joinPublisher := hphase.symm ▸ h.joinPublisher }

end Ordered

theorem init_invariants (fifoPending : Nat) :
    (init P fifoPending).Consistent P ∧ (init P fifoPending).Ordered :=
  ⟨Consistent.init fifoPending, Ordered.init fifoPending⟩

/-- **The invariant rule of the threads**: a step may use that the state before
it is consistent and ordered. -/
theorem run_induction
    {ok : Pipeline σ → ThreadAction → Prop} (I : Pipeline σ → Prop)
    (hI : ∀ s a s', s.Consistent P ∧ s.Ordered → ok s a → I s →
      s.step c P S a = some s' → I s')
    (hrun : Steps (step c P S) ok s s')
    (hinv : s.Consistent P ∧ s.Ordered) (hs : I s) :
    (s'.Consistent P ∧ s'.Ordered) ∧ I s' :=
  hrun.invariant (fun s => (s.Consistent P ∧ s.Ordered) ∧ I s)
    (fun s a s' hok h hstep =>
      ⟨⟨h.1.1.step hstep, h.1.2.step h.1.1.fits hstep⟩,
        hI s a s' h.1 hok h.2 hstep⟩) ⟨hinv, hs⟩

end Pipeline

end NanoExchange
