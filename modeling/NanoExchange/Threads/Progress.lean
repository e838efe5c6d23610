import NanoExchange.Gateway.Routing
import NanoExchange.Threads.EngineThread
import NanoExchange.Threads.Invariant

/-!
# Running threads do not block each other

While `main` has not begun to stop them, the threads can always finish their
work, whatever the capacities of the queues: `running_threads_settle`.  The
streamer only pops, so the publisher can always go on; the gateway never waits
for the request queue, so it comes back to the responses; so the engine can
push every output of the request in progress, and gets to the next request.
-/

namespace NanoExchange

open Lib

namespace Pipeline

variable {σ : Type} {c : Capacities} {P : Processor σ} {S : StdSort}
variable {s s' s'' : Pipeline σ}

/-- The threads get from one state to the other by themselves. -/
abbrev Works (c : Capacities) (P : Processor σ) (S : StdSort)
    (s s' : Pipeline σ) : Prop :=
  Steps (step c P S) (fun _ a => a.Internal) s s'

/-- A reachable state before the shutdown. -/
structure Ready (P : Processor σ) (s : Pipeline σ) : Prop where
  consistent : s.Consistent P
  ordered : s.Ordered
  running : s.main = .running

/-- **Working neither loses nor makes up a request**: those that are pushed
have been waiting before. -/
def Carries (s s' : Pipeline σ) : Prop :=
  ∃ l : List RecvClientRequest,
    s'.front.accepted = s.front.accepted ++ l.map RecvClientRequest.request ∧
    (l ++ s'.front.waiting).Perm s.front.waiting

theorem Carries.refl (s : Pipeline σ) : s.Carries s :=
  ⟨[], (List.append_nil _).symm, List.Perm.refl _⟩

theorem Carries.trans (h : s.Carries s') (h' : s'.Carries s'') :
    s.Carries s'' := by
  obtain ⟨l, haccepted, hwaiting⟩ := h
  obtain ⟨l', haccepted', hwaiting'⟩ := h'
  refine ⟨l ++ l', ?_, ?_⟩
  · rw [haccepted', haccepted, List.map_append, List.append_assoc]
  · rw [List.append_assoc]
    exact (hwaiting'.append_left l).trans hwaiting

/-- The requests that have been decoded and not processed. -/
def unprocessed (s : Pipeline σ) : Nat :=
  s.front.requestQ.length + s.front.waiting.length

namespace Ready

theorem step_internal
    {a : ThreadAction} (h : s.Ready P) (ha : a.Internal)
    (hstep : s.step c P S a = some s') :
    s'.Ready P ∧ s.Carries s' := by
  have hconsistent := h.consistent.step hstep
  have hordered := h.ordered.step h.consistent.fits hstep
  cases a with
  | gateway =>
      obtain ⟨f, hf, rfl⟩ := Option.map_eq_some_iff.mp hstep
      obtain ⟨l, -, haccepted, hwaiting⟩ :=
        (FrontEnd.Moves.gateway h.consistent.fits hf).forwards
      exact ⟨⟨hconsistent, hordered, h.running⟩, l, haccepted, hwaiting⟩
  | engine =>
      have hcases := EngineStep.of_engine hstep
      have hsame : s'.main = s.main ∧
          s'.front.accepted = s.front.accepted ∧
          s'.front.waiting = s.front.waiting := by
        cases hcases <;> exact ⟨rfl, rfl, rfl⟩
      obtain ⟨hmain, haccepted, hwaiting⟩ := hsame
      refine ⟨⟨hconsistent, hordered, hmain.trans h.running⟩, [], ?_, ?_⟩
      · rw [haccepted]
        exact (List.append_nil _).symm
      · rw [hwaiting]
        exact List.Perm.refl _
  | publisher =>
      obtain ⟨b, hb, rfl⟩ := Option.map_eq_some_iff.mp hstep
      exact ⟨⟨hconsistent, hordered, h.running⟩, Carries.refl s⟩
  | streamer =>
      obtain ⟨b, hb, rfl⟩ := Option.map_eq_some_iff.mp hstep
      exact ⟨⟨hconsistent, hordered, h.running⟩, Carries.refl s⟩
  | main => exact ha.elim
  | recv x => exact ha.elim
  | recvFinished => exact ha.elim

/-- What holds of every run of the threads by themselves. -/
theorem works (h : s.Ready P) (hrun : Works c P S s s') :
    s'.Ready P ∧ s.Carries s' :=
  hrun.invariant (fun t => t.Ready P ∧ s.Carries t)
    (fun _ _ _ ha ht hstep =>
      ⟨(ht.1.step_internal ha hstep).1,
        ht.2.trans (ht.1.step_internal ha hstep).2⟩) ⟨h, Carries.refl s⟩

/-- Every request that the engine has processed is one less to do. -/
theorem unprocessed_eq (h : s.Ready P) (hrun : Works c P S s s') :
    s'.processed.length + s'.unprocessed =
      s.processed.length + s.unprocessed := by
  obtain ⟨hready, l, haccepted, hwaiting⟩ := h.works hrun
  have hlen := congrArg List.length haccepted
  have hperm := hwaiting.length_eq
  rw [h.consistent.queued, hready.consistent.queued] at hlen
  simp only [List.length_append, List.length_map] at hlen hperm
  unfold unprocessed
  omega

end Ready

section BackEnd

theorem works_publisher
    (hmain : s.main = .running) {b : BackEnd}
    (hb : s.back.publisher c.streamerUpdates true = some b) :
    Works c P S s { s with back := b } :=
  .single (a := .publisher) trivial (by simp [step, hmain, hb,
    MainPhase.publisherRuns])

theorem works_streamer
    (hmain : s.main = .running) {b : BackEnd}
    (hb : s.back.streamer true = some b) :
    Works c P S s { s with back := b } :=
  .single (a := .streamer) trivial (by simp [step, hmain, hb,
    MainPhase.streamerRuns])

/-- The streamer pops all entries of its queue. -/
theorem streamer_pops
    (hmain : s.main = .running) (hphase : s.back.streamerPhase = .drain) :
    Works c P S s { s with
      back := { s.back with
        streamerUpdates := []
        streamed := s.back.streamed ++ s.back.streamerUpdates } } := by
  induction hq : s.back.streamerUpdates generalizing s with
  | nil =>
      rw [List.append_nil, ← hq]
      exact Steps.refl s
  | cons snap rest ih =>
      let popped : BackEnd :=
        { s.back with
          streamerUpdates := rest
          streamed := s.back.streamed ++ [snap] }
      have hpop : s.back.streamer true = some popped := by
        simp [BackEnd.streamer, hphase, hq, popped]
      have hrest := ih (s := { s with back := popped }) hmain hphase rfl
      simp only [popped, List.append_assoc] at hrest
      exact (works_streamer hmain hpop).trans hrest

theorem streamer_drains (hs : s.Ready P) :
    ∃ b, Works c P S s { s with back := b } ∧ b.streamerUpdates = [] ∧
      b.publisherPhase = s.back.publisherPhase ∧
      b.marketUpdateQ = s.back.marketUpdateQ := by
  have hmain := hs.running
  cases hphase : s.back.streamerPhase with
  | drain => exact ⟨_, streamer_pops hmain hphase, rfl, rfl, rfl⟩
  | test =>
      have htest : s.back.streamer true =
          some { s.back with streamerPhase := .drain } := by
        simp [BackEnd.streamer, hphase]
      exact ⟨_, (works_streamer hmain htest).trans (streamer_pops hmain rfl),
        rfl, rfl, rfl⟩
  | exited =>
      have hruns := hs.ordered.streamer hphase
      rw [hmain] at hruns
      cases hruns

/-- What the publisher has to do for an update, in steps. -/
def publisherWork (b : BackEnd) : Nat :=
  5 * b.marketUpdateQ.length +
    match b.publisherPhase with
    | .test | .exited => 4
    | .poll => 3
    | .push _ => 2
    | .advance => 1

/-- While there is an update, the publisher has a step to take, if the streamer
makes room for it. -/
theorem publisher_works
    (hc : c.Positive) (hs : s.Ready P) (hne : s.back.marketUpdateQ ≠ []) :
    ∃ b, Works c P S s { s with back := b } ∧
      publisherWork b < publisherWork s.back := by
  have hmain := hs.running
  obtain ⟨u, rest, hq⟩ := List.exists_cons_of_ne_nil hne
  cases hphase : s.back.publisherPhase with
  | test =>
      have hstep : s.back.publisher c.streamerUpdates true =
          some { s.back with publisherPhase := .poll } := by
        simp [BackEnd.publisher, hphase]
      exact ⟨_, works_publisher hmain hstep, by simp [publisherWork, hphase]⟩
  | poll =>
      have hu : u.type.Incremental :=
        hs.consistent.back.incremental u
          (by simp [hs.consistent.back.queued, hq])
      have hstep : s.back.publisher c.streamerUpdates true =
          some { s.back with
            published := s.back.published ++ [(s.back.nextSeqNum, u)]
            publisherPhase := .push (s.back.nextSeqNum, u) } := by
        simp [BackEnd.publisher, hphase, hq, hu]
      exact ⟨_, works_publisher hmain hstep, by simp [publisherWork, hphase]⟩
  | push snap =>
      obtain ⟨b, hdrain, hempty, hsame, hqueue⟩ :=
        streamer_drains (c := c) (S := S) hs
      have hstep : b.publisher c.streamerUpdates true =
          some { b with
            streamerUpdates := b.streamerUpdates ++ [snap]
            publisherPhase := .advance } := by
        have hroom : b.streamerUpdates.length < c.streamerUpdates := by
          rw [hempty]
          exact hc.streamerUpdates
        simp [BackEnd.publisher, hsame, hphase, hroom]
      exact ⟨_, hdrain.trans
        (works_publisher (s := { s with back := b }) hmain hstep),
        by simp [publisherWork, hphase, hqueue]⟩
  | advance =>
      have hstep : s.back.publisher c.streamerUpdates true =
          some { s.back with
            marketUpdateQ := s.back.marketUpdateQ.tail
            nextSeqNum := (s.back.nextSeqNum + 1) % wordSize
            taken := s.back.taken ++ s.back.marketUpdateQ.take 1
            publisherPhase := .test } := by
        simp [BackEnd.publisher, hphase]
      exact ⟨_, works_publisher hmain hstep, by
        simp [publisherWork, hphase, hq]
        omega⟩
  | exited =>
      have hruns := hs.ordered.publisher hphase
      rw [hmain] at hruns
      cases hruns

/-- **The publisher and the streamer can always empty their queues.** -/
theorem back_drains (hc : c.Positive) (hs : s.Ready P) :
    ∃ b, Works c P S s { s with back := b } ∧ b.marketUpdateQ = [] ∧
      b.streamerUpdates = [] := by
  obtain ⟨t, hpublish, ⟨ht, b, rfl⟩, hempty⟩ : ∃ t, Works c P S s t ∧
      (t.Ready P ∧ ∃ b, t = { s with back := b }) ∧
      t.back.marketUpdateQ = [] := by
    refine Steps.progress _ _ (fun t => publisherWork t.back) ?_
      ⟨hs, s.back, rfl⟩
    rintro t ⟨ht, b, rfl⟩ hne
    obtain ⟨b', hwork, hlt⟩ := publisher_works hc ht hne
    exact ⟨_, hwork, ⟨(ht.works hwork).1, b', rfl⟩, hlt⟩
  obtain ⟨b', hdrain, hstreamer, -, hqueue⟩ :=
    streamer_drains (c := c) (S := S) ht
  exact ⟨b', hpublish.trans hdrain, hqueue.trans hempty, hstreamer⟩

end BackEnd

section FrontEnd

theorem works_gateway
    (hmain : s.main = .running) {f : FrontEnd}
    (hf : s.front.gateway S c.requestQ true = some f) :
    Works c P S s { s with front := f } :=
  .single (a := .gateway) trivial (by simp [step, hmain, hf,
    MainPhase.gatewayRuns])

/-- `publishPendingOrders` comes to an end, whatever room it finds. -/
theorem publish_returns
    (hs : s.Ready P) {held : Option RecvClientRequest}
    (hphase : s.front.phase = .publish held) :
    ∃ f, Works c P S s { s with front := f } ∧ f.phase = .receive ∧
      f.responseQ = s.front.responseQ := by
  obtain ⟨returned, hreturn, -, hreceive, hsame⟩ :=
    FrontEnd.Moves.finishPublish hs.consistent.fits hphase
  induction hpending : s.front.fifo.pending generalizing s returned with
  | nil =>
      have hstep : s.front.gateway S c.requestQ true = some returned := by
        simp [FrontEnd.gateway, hphase, hpending, hreturn]
      exact ⟨_, works_gateway hs.running hstep, hreceive, hsame⟩
  | cons x rest ih =>
      by_cases hroom : s.front.requestQ.length < c.requestQ
      · let pushed : FrontEnd :=
          { s.front with
            phase := .publish held
            fifo := { s.front.fifo with pending := rest }
            requestQ := s.front.requestQ ++ [x.request]
            accepted := s.front.accepted ++ [x.request] }
        have hstep : s.front.gateway S c.requestQ true = some pushed := by
          simp [FrontEnd.gateway, hphase, hpending, hroom, pushed]
        have hwork := works_gateway (P := P) hs.running hstep
        have hready := (hs.works hwork).1
        obtain ⟨returned', hreturn', -, hreceive', hsame'⟩ :=
          FrontEnd.Moves.finishPublish hready.consistent.fits rfl
        obtain ⟨f, hrest, hf⟩ :=
          ih hready rfl returned' hreturn' hreceive' hsame' rfl
        exact ⟨f, hwork.trans hrest, hf⟩
      · have hstep : s.front.gateway S c.requestQ true = some returned := by
          simp [FrontEnd.gateway, hphase, hpending, hroom, hreturn]
        exact ⟨_, works_gateway hs.running hstep, hreceive, hsame⟩

/-- The gateway never waits for the request queue, so it comes back to the
responses. -/
theorem gateway_reaches_drain (hs : s.Ready P) :
    ∃ f, Works c P S s { s with front := f } ∧ f.phase = .drain ∧
      f.responseQ = s.front.responseQ := by
  have htest : ∀ {t : Pipeline σ}, t.main = .running →
      t.front.phase = .test →
      Works c P S t { t with front := { t.front with phase := .drain } } :=
    fun hmain hphase =>
      works_gateway hmain (by simp [FrontEnd.gateway, hphase])
  have hreceive : ∀ {t : Pipeline σ}, t.main = .running →
      t.front.phase = .receive →
      Works c P S t { t with front := { t.front with phase := .drain } } :=
    fun {t} hmain hphase =>
      (works_gateway (f := { t.front with phase := .test }) hmain
        (by simp [FrontEnd.gateway, hphase])).trans (htest hmain rfl)
  have hmain := hs.running
  cases hphase : s.front.phase with
  | test => exact ⟨_, htest hmain hphase, rfl, rfl⟩
  | drain => exact ⟨s.front, Steps.refl s, hphase, rfl⟩
  | publish held =>
      obtain ⟨f, hpublish, hf, hsame⟩ := publish_returns hs hphase
      exact ⟨_, hpublish.trans (hreceive hmain hf), rfl, hsame⟩
  | receive => exact ⟨_, hreceive hmain hphase, rfl, rfl⟩
  | exited =>
      have hruns := hs.ordered.gateway hphase
      rw [hmain] at hruns
      cases hruns

/-- **The gateway can always empty the response queue.** -/
theorem front_drains (hs : s.Ready P) :
    ∃ f, Works c P S s { s with front := f } ∧ f.phase = .drain ∧
      f.responseQ = [] := by
  obtain ⟨f, hreach, hphase, -⟩ := gateway_reaches_drain (c := c) (S := S) hs
  have hpop : ∀ (resps : List MEClientResponse) (t : Pipeline σ),
      t.main = .running → t.front.phase = .drain →
      t.front.responseQ = resps →
      ∃ f, Works c P S t { t with front := f } ∧ f.phase = .drain ∧
        f.responseQ = [] := by
    intro resps
    induction resps with
    | nil => exact fun t _ hphase hq => ⟨t.front, Steps.refl t, hphase, hq⟩
    | cons resp rest ih =>
        intro t hmain hphase hq
        let popped : FrontEnd :=
          { t.front with
            responseQ := rest
            delivered := t.front.delivered ++ [resp] }
        have hstep : t.front.gateway S c.requestQ true = some popped := by
          simp [FrontEnd.gateway, hphase, hq, popped]
        obtain ⟨f, hrest, hf⟩ :=
          ih { t with front := popped } hmain hphase rfl
        exact ⟨f, (works_gateway hmain hstep).trans hrest, hf⟩
  obtain ⟨f', hdrain, hf'⟩ :=
    hpop _ { s with front := f } hs.running hphase rfl
  exact ⟨f', hreach.trans hdrain, hf'⟩

end FrontEnd

section Engine

theorem works_engine (h : s.engine c P = some s') : Works c P S s s' :=
  .single (a := .engine) trivial h

/-- **The engine can always finish the request in progress**, however much it
sends. -/
theorem engine_finishes
    (hc : c.Positive) (hs : s.Ready P) {outs : List Output}
    (hphase : s.phase = .busy outs) :
    ∃ s', Works c P S s s' ∧
      s'.processed.length = s.processed.length + 1 := by
  induction outs generalizing s with
  | nil =>
      have hne := hs.consistent.busy _ hphase
      obtain ⟨r, rest, hq⟩ := List.exists_cons_of_ne_nil hne
      have hstep : s.engine c P = some
          { s with
            front := { s.front with requestQ := s.front.requestQ.tail }
            phase := .test
            processed := s.processed ++ s.front.requestQ.take 1 } := by
        simp [engine, hphase]
      exact ⟨_, works_engine hstep, by simp [hq]⟩
  | cons o outs ih =>
      cases o with
      | response resp =>
          obtain ⟨f, hdrain, -, hempty⟩ := front_drains (c := c) (S := S) hs
          have hstep : engine c P { s with front := f } = some
              { s with
                front := { f with responseQ := f.responseQ ++ [resp] }
                phase := .busy outs
                sent := s.sent ++ [.response resp] } := by
            have hroom : f.responseQ.length < c.responseQ := by
              rw [hempty]
              exact hc.responseQ
            simp [engine, hphase, hroom]
          have hwork := hdrain.trans (works_engine hstep)
          obtain ⟨s', hrest, hlen⟩ := ih (hs.works hwork).1 rfl
          exact ⟨s', hwork.trans hrest, hlen⟩
      | update u =>
          obtain ⟨b, hdrain, hempty, -⟩ := back_drains (S := S) hc hs
          have hstep : engine c P { s with back := b } = some
              { s with
                back := { b with marketUpdateQ := b.marketUpdateQ ++ [u] }
                phase := .busy outs
                sent := s.sent ++ [.update u] } := by
            have hroom : b.marketUpdateQ.length < c.marketUpdateQ := by
              rw [hempty]
              exact hc.marketUpdateQ
            simp [engine, hphase, hroom]
          have hwork := hdrain.trans (works_engine hstep)
          obtain ⟨s', hrest, hlen⟩ := ih (hs.works hwork).1 rfl
          exact ⟨s', hwork.trans hrest, hlen⟩

/-- The engine can always process the next request of its queue. -/
theorem engine_processes
    (hc : c.Positive) (hs : s.Ready P) (hne : s.front.requestQ ≠ []) :
    ∃ s', Works c P S s s' ∧
      s'.processed.length = s.processed.length + 1 := by
  obtain ⟨r, rest, hq⟩ := List.exists_cons_of_ne_nil hne
  have hmain := hs.running
  have hbegin : ∀ {t : Pipeline σ}, t.Ready P → t.phase = .poll →
      t.front.requestQ = r :: rest →
      ∃ s', Works c P S t s' ∧
        s'.processed.length = t.processed.length + 1 := by
    intro t ht hphase hq
    have hstep : t.engine c P = some
        { t with
          books := (P.process t.books r).1
          phase := .busy (P.process t.books r).2 } := by
      simp [engine, hphase, hq]
    have hwork := works_engine (S := S) hstep
    obtain ⟨s', hrest, hlen⟩ := engine_finishes hc (ht.works hwork).1 rfl
    exact ⟨s', hwork.trans hrest, hlen⟩
  cases hphase : s.phase with
  | test =>
      have hstep : s.engine c P = some { s with phase := .poll } := by
        simp [engine, hphase, hmain, MainPhase.engineRuns]
      have hwork := works_engine (S := S) hstep
      obtain ⟨s', hrest, hlen⟩ := hbegin (hs.works hwork).1 rfl hq
      exact ⟨s', hwork.trans hrest, hlen⟩
  | poll => exact hbegin hs hphase hq
  | busy outs => exact engine_finishes hc hs hphase
  | exited =>
      have hruns := hs.ordered.engine hphase
      rw [hmain] at hruns
      cases hruns

/-- A waiting request can always be brought into the request queue. -/
theorem waiting_arrives
    (hc : c.Positive) (hs : s.Ready P) (hne : s.unprocessed ≠ 0) :
    ∃ s', Works c P S s s' ∧ s'.front.requestQ ≠ [] ∧
      s'.processed = s.processed := by
  obtain ⟨f, hdrain, hphase, hempty⟩ := front_drains (c := c) (S := S) hs
  by_cases hq : f.requestQ = []
  · have hsum := hs.unprocessed_eq hdrain
    have hpending : f.fifo.pending ≠ [] := by
      intro hnil
      have hwaiting : f.waiting = [] := by
        simp [FrontEnd.waiting, FrontEnd.held, hnil, hphase]
      simp only [unprocessed, hq, hwaiting, List.length_nil] at hsum hne
      omega
    obtain ⟨x, rest, hsorted⟩ : ∃ x rest,
        (f.fifo.sortPending S).pending = x :: rest := by
      refine List.exists_cons_of_ne_nil fun hnil => hpending ?_
      have hperm := f.fifo.sortPending_perm S
      rw [hnil] at hperm
      exact hperm.nil_eq.symm
    have hstart : f.gateway S c.requestQ true =
        some (f.startPublish S none) := by
      simp [FrontEnd.gateway, hphase, hempty]
    have hpush : (f.startPublish S none).gateway S c.requestQ true =
        some { f.startPublish S none with
          fifo := { f.fifo.sortPending S with pending := rest }
          requestQ := [x.request]
          accepted := f.accepted ++ [x.request] } := by
      simp [FrontEnd.gateway, FrontEnd.startPublish, hsorted, hq,
        Nat.lt_of_lt_of_le Nat.one_pos hc.requestQ]
    have hstarted : Works c P S { s with front := f }
        { s with front := f.startPublish S none } :=
      works_gateway (s := { s with front := f }) hs.running hstart
    have hpushed := works_gateway (P := P)
      (s := { s with front := f.startPublish S none }) hs.running hpush
    exact ⟨_, hdrain.trans (hstarted.trans hpushed), List.cons_ne_nil _ _,
      rfl⟩
  · exact ⟨_, hdrain, hq, rfl⟩

end Engine

/-- No request waits, all queues are empty and the engine is idle. -/
structure Settled (s : Pipeline σ) : Prop where
  waiting : s.front.waiting = []
  requestQ : s.front.requestQ = []
  responseQ : s.front.responseQ = []
  marketUpdateQ : s.back.marketUpdateQ = []
  streamerUpdates : s.back.streamerUpdates = []
  idle : ∀ outs, s.phase ≠ .busy outs

/-- From every state before the shutdown the threads can settle. -/
theorem works_settled (hc : c.Positive) (hs : s.Ready P) :
    ∃ s', Works c P S s s' ∧ s'.Ready P ∧ s'.Settled := by
  obtain ⟨t, hwork, ht, hzero⟩ : ∃ t, Works c P S s t ∧ t.Ready P ∧
      t.unprocessed = 0 := by
    refine Steps.progress _ _ unprocessed ?_ hs
    intro t ht hne
    obtain ⟨t₁, hwork₁, hq, hprocessed⟩ := waiting_arrives (S := S) hc ht hne
    obtain ⟨t₂, hwork₂, hlen⟩ :=
      engine_processes (S := S) hc (ht.works hwork₁).1 hq
    have hwork := hwork₁.trans hwork₂
    have hsum := ht.unprocessed_eq hwork
    rw [hlen, hprocessed] at hsum
    exact ⟨t₂, hwork, (ht.works hwork).1, by omega⟩
  obtain ⟨f, hfront, hphase, hresponses⟩ := front_drains (c := c) (S := S) ht
  have hf := (ht.works hfront).1
  have hsum := ht.unprocessed_eq hfront
  obtain ⟨b, hback, hupdates, hstreamer⟩ := back_drains (S := S) hc hf
  have hnone : f.requestQ.length + f.waiting.length = 0 := by
    simp only [hzero] at hsum
    exact Nat.add_left_cancel hsum
  obtain ⟨hrequestQ, hwaiting⟩ := Nat.add_eq_zero_iff.mp hnone
  have hready := (hf.works hback).1
  refine ⟨_, hwork.trans (hfront.trans hback), hready, ?_⟩
  exact ⟨List.length_eq_zero_iff.mp hwaiting,
    List.length_eq_zero_iff.mp hrequestQ, hresponses, hupdates, hstreamer,
    fun outs hbusy => hready.consistent.busy outs hbusy
      (List.length_eq_zero_iff.mp hrequestQ)⟩

/-- **Running threads do not block each other**: from every state that is
reachable before the shutdown, for queues of any capacity and whatever the
requests make the engine send, some finite sequence of steps leads to a state
in which everything is settled: the engine has processed all requests that had
been queued or were waiting, the gateway has popped all responses, and the
publisher has published and the streamer popped all updates. -/
theorem running_threads_settle
    (hc : c.Positive) {fifoPending : Nat}
    (hreach : Reachable c P S fifoPending s) (hmain : s.main = .running) :
    ∃ (s' : Pipeline σ) (l : List RecvClientRequest), Works c P S s s' ∧
      s'.Settled ∧ l.Perm s.front.waiting ∧
      s'.processed = s.processed ++ s.front.requestQ ++
        l.map RecvClientRequest.request ∧
      s'.front.delivered =
        (P.run P.start s'.processed).2.filterMap Output.response? ∧
      s'.back.published = numbered
        ((P.run P.start s'.processed).2.filterMap Output.update?) ∧
      s'.back.streamed = s'.back.published := by
  obtain ⟨⟨hconsistent, hordered⟩, -⟩ := run_induction (fun _ => True)
    (fun _ _ _ _ _ _ _ => trivial) hreach (init_invariants fifoPending)
    trivial
  have hs : s.Ready P := ⟨hconsistent, hordered, hmain⟩
  obtain ⟨s', hwork, hs', hsettled⟩ := works_settled (S := S) hc hs
  obtain ⟨-, l, haccepted, hwaiting⟩ := hs.works hwork
  rw [hsettled.waiting, List.append_nil] at hwaiting
  have hqueued := hs'.consistent.queued
  rw [haccepted, hs.consistent.queued, hsettled.requestQ, List.append_nil]
    at hqueued
  have hhistory : (P.run P.start s'.processed).2 = s'.sent := by
    have hidle : s'.inProgress = [] ∧ s'.unsent = [] := by
      unfold inProgress unsent
      cases hphase : s'.phase with
      | busy outs => exact (hsettled.idle outs hphase).elim
      | test | poll | exited => exact ⟨rfl, rfl⟩
    have hhistory := hs'.consistent.history
    rw [hidle.1, hidle.2, List.append_nil, List.append_nil] at hhistory
    rw [hhistory]
  have hresponses := hs'.consistent.responses
  rw [hsettled.responseQ, List.append_nil] at hresponses
  have hserves := hs'.consistent.back
  have hidle : s'.back.inHand = [] ∧ s'.back.out = s'.back.taken := by
    have hnone : ¬ s'.back.publisherPhase.Sending :=
      fun h => hserves.sending h hsettled.marketUpdateQ
    unfold BackEnd.inHand BackEnd.out
    cases hphase : s'.back.publisherPhase with
    | push snap => exact (hnone (by rw [hphase]; trivial)).elim
    | advance => exact (hnone (by rw [hphase]; trivial)).elim
    | test | poll | exited => exact ⟨rfl, rfl⟩
  refine ⟨s', l, hwork, hsettled, hwaiting, hqueued.symm, ?_, ?_, ?_⟩
  · rw [hhistory, hresponses]
  · have hupdates := hserves.queued
    rw [hsettled.marketUpdateQ, List.append_nil] at hupdates
    rw [hhistory, hupdates, hserves.published, hidle.2]
  · have hstreamed := hserves.streamed
    rwa [hsettled.streamerUpdates, hidle.1, List.append_nil, List.append_nil]
      at hstreamed

/-- Every queue holds one entry, and an order makes the engine send two
responses. -/
theorem running_threads_settle_example :
    ∃ s s', ∃ l : List RecvClientRequest,
      Reachable ⟨1, 1, 1, 1⟩ (MatchingEngine.mapProcessor 16)
        Surroundings.roomy.stdSort 10000 s ∧
      s.front.waiting.length = 1 ∧ s.main = .running ∧
      Works ⟨1, 1, 1, 1⟩ (MatchingEngine.mapProcessor 16)
        Surroundings.roomy.stdSort s s' ∧ s'.Settled ∧
      l.Perm s.front.waiting ∧
      s'.processed = s.processed ++ s.front.requestQ ++
        l.map RecvClientRequest.request := by
  have hrun : ∃ s, Reachable ⟨1, 1, 1, 1⟩ (MatchingEngine.mapProcessor 16)
      Surroundings.roomy.stdSort 10000 s ∧
      s.front.waiting.length = 1 ∧ s.main = .running :=
    ⟨_, Steps.of_follow [.gateway, .gateway, .gateway,
      .recv ⟨1, { MEClientRequest.blank 1 with
        clientOrderId := 1, qty := 5, type := .fillAndKill }, []⟩] rfl, rfl,
      rfl⟩
  obtain ⟨s, hreach, hwaiting, hmain⟩ := hrun
  obtain ⟨s', l, hwork, hsettled, hperm, hprocessed, -⟩ :=
    running_threads_settle ⟨le_rfl, le_rfl, le_rfl, le_rfl⟩ hreach hmain
  exact ⟨s, s', l, hreach, hwaiting, hmain, hwork, hsettled, hperm,
    hprocessed⟩

end Pipeline

end NanoExchange
