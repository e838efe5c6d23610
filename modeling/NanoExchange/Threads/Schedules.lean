import NanoExchange.Threads.Progress

/-!
# Every schedule does what the engine does

The engine thread sends the outputs of a request one by one, and the other
threads see them at any time in between.  Still the threads together are no
more than the engine run on the requests in the order in which they have been
pushed: at every moment the engine has sent all about the requests it is done
with and a part of what it sends about the next one, and the gateway and the
publisher have passed on a part of that (`threads_refine_engine`).

So the schedule, the capacities of the queues and the sort in the gateway decide
when a message is passed on, but not which one (`schedules_agree`).
-/

namespace NanoExchange

open Lib

theorem numbered_mono
    {us us' : List MEMarketUpdate} (h : us <+: us') :
    numbered us <+: numbered us' := by
  obtain ⟨rest, rfl⟩ := h
  unfold numbered
  rw [List.mapIdx_append]
  exact List.prefix_append _ _

namespace Processor

variable {σ : Type} (P : Processor σ)

theorem run_append (s : σ) (rs rs' : List MEClientRequest) :
    P.run s (rs ++ rs') =
      ((P.run (P.run s rs).1 rs').1,
        (P.run s rs).2 ++ (P.run (P.run s rs).1 rs').2) := by
  induction rs generalizing s with
  | nil => rfl
  | cons r rs ih => simp only [List.cons_append, run, ih, List.append_assoc]

/-- What more requests make the engine send comes behind. -/
theorem run_mono (s : σ) {rs rs' : List MEClientRequest} (h : rs <+: rs') :
    (P.run s rs).2 <+: (P.run s rs').2 := by
  obtain ⟨rest, rfl⟩ := h
  rw [run_append]
  exact List.prefix_append _ _

end Processor

namespace BackEnd.Serves

variable {us : List MEMarketUpdate} {b : BackEnd}

theorem published_numbered (h : b.Serves us) :
    b.published <+: numbered us := by
  rw [h.published, h.queued]
  refine numbered_mono ?_
  unfold out
  cases b.publisherPhase with
  | test | poll | exited => exact List.prefix_append _ _
  | push | advance =>
      exact (List.prefix_append_right_inj _).mpr (List.take_prefix _ _)

theorem streamed_published (h : b.Serves us) : b.streamed <+: b.published := by
  rw [← h.streamed, List.append_assoc]
  exact List.prefix_append _ _

/-- With empty queues everything has been published and streamed. -/
theorem of_empty
    (h : b.Serves us) (hupdates : b.marketUpdateQ = [])
    (hstreamer : b.streamerUpdates = []) :
    b.published = numbered us ∧ b.streamed = b.published := by
  have hidle : b.inHand = [] ∧ b.out = b.taken := by
    have hnone : ¬ b.publisherPhase.Sending :=
      fun hsending => h.sending hsending hupdates
    unfold inHand out
    cases hphase : b.publisherPhase with
    | push snap => exact (hnone (by rw [hphase]; trivial)).elim
    | advance => exact (hnone (by rw [hphase]; trivial)).elim
    | test | poll | exited => exact ⟨rfl, rfl⟩
  have hqueued := h.queued
  have hstreamed := h.streamed
  rw [hupdates, List.append_nil] at hqueued
  rw [hstreamer, hidle.1, List.append_nil, List.append_nil] at hstreamed
  exact ⟨by rw [h.published, hidle.2, hqueued], hstreamed⟩

end BackEnd.Serves

namespace Pipeline

section Processor

variable {σ : Type} {c : Capacities} {P : Processor σ} {S : StdSort}
variable {s s' : Pipeline σ}

/-- The requests that the engine has begun to process. -/
def begun (s : Pipeline σ) : List MEClientRequest :=
  s.processed ++ s.inProgress

namespace Consistent

theorem begun_accepted (h : s.Consistent P) :
    s.begun <+: s.front.accepted := by
  rw [begun, h.queued]
  refine (List.prefix_append_right_inj _).mpr ?_
  unfold inProgress
  cases s.phase with
  | busy outs => exact List.take_prefix _ _
  | test | poll | exited => exact List.nil_prefix

theorem sent_mono (h : s.Consistent P) :
    s.sent <+: (P.run P.start s.begun).2 := by
  rw [begun, h.history]
  exact List.prefix_append _ _

/-- The gateway has passed on a part of the responses. -/
theorem delivered_sent (h : s.Consistent P) :
    s.front.delivered <+: s.sent.filterMap Output.response? := by
  rw [← h.responses]
  exact List.prefix_append _ _

theorem sent_of_idle
    (h : s.Consistent P) (hidle : ∀ outs, s.phase ≠ .busy outs) :
    s.begun = s.processed ∧
      P.run P.start s.processed = (s.books, s.sent) := by
  have hnone : s.inProgress = [] ∧ s.unsent = [] := by
    unfold inProgress unsent
    cases hphase : s.phase with
    | busy outs => exact (hidle outs hphase).elim
    | test | poll | exited => exact ⟨rfl, rfl⟩
  have hhistory := h.history
  rw [hnone.1, hnone.2, List.append_nil, List.append_nil] at hhistory
  exact ⟨by rw [begun, hnone.1, List.append_nil], hhistory⟩

end Consistent

/-- The engine has sent all about the requests it is done with. -/
def SentProcessed (P : Processor σ) (s : Pipeline σ) : Prop :=
  (P.run P.start s.processed).2 <+: s.sent

/-- Only the step that ends a request asks for more to be sent, and then there
is nothing left to send about it. -/
theorem SentProcessed.engine
    (h : s.SentProcessed P) (hconsistent : s.Consistent P)
    (hstep : EngineStep c P s s') :
    s'.SentProcessed P := by
  cases hstep with
  | test hphase => exact h
  | idle hphase hq => exact h
  | begin r rest hphase hq => exact h
  | respond resp outs hphase hroom => exact h.trans (List.prefix_append _ _)
  | publish u outs hphase hroom => exact h.trans (List.prefix_append _ _)
  | finish hphase =>
      have hhistory := hconsistent.history
      simp only [inProgress, unsent, hphase, List.append_nil] at hhistory
      unfold SentProcessed
      dsimp only
      rw [hhistory]

theorem SentProcessed.step
    {a : ThreadAction} (h : s.SentProcessed P) (hconsistent : s.Consistent P)
    (hstep : s.step c P S a = some s') :
    s'.SentProcessed P := by
  cases a with
  | engine => exact h.engine hconsistent (.of_engine hstep)
  | main =>
      obtain ⟨m, rfl⟩ := mainThread_eq hstep
      exact h
  | gateway | recv x | recvFinished =>
      obtain ⟨f, -, rfl⟩ := Option.map_eq_some_iff.mp hstep
      exact h
  | publisher | streamer =>
      obtain ⟨b, -, rfl⟩ := Option.map_eq_some_iff.mp hstep
      exact h

/-- What holds under every schedule. -/
theorem Reachable.sound
    {fifoPending : Nat} (hreach : Reachable c P S fifoPending s) :
    s.Consistent P ∧ s.SentProcessed P := by
  obtain ⟨⟨hconsistent, -⟩, hsent⟩ := run_induction (SentProcessed P)
    (fun s a s' hinv _ h hstep => h.step hinv.1 hstep) hreach
    (init_invariants fifoPending) List.nil_prefix
  exact ⟨hconsistent, hsent⟩

end Processor

section Engine

variable {Lv Q : Type} [LevelTable Lv] [BookImpl Lv] [ObliviousBook Lv]
  [ObjectPool Q] {books poolSize : Nat}
variable {c c' : Capacities} {S S' : StdSort}
variable {s t : Pipeline (Except Fault (MatchingEngine Lv Q))}

open MatchingEngine (processor processor_run)

omit [ObliviousBook Lv] in
/-- The engine has got through every part of the requests, if it gets through
all of them. -/
theorem run_of_prefix
    {rs rs' : List MEClientRequest} (h : rs <+: rs')
    {e : MatchingEngine Lv Q}
    (he : MatchingEngine.run Lv Q books poolSize rs' = .ok e) :
    ∃ e₀, MatchingEngine.run Lv Q books poolSize rs = .ok e₀ := by
  obtain ⟨rest, rfl⟩ := h
  obtain ⟨e₀, he₀, -⟩ := foldlM_append_ok he
  exact ⟨e₀, he₀⟩

/-- The engine sends nothing but what it would send about the requests that
have been pushed. -/
theorem Consistent.sent_outputs
    (h : s.Consistent (processor Lv Q books poolSize))
    {rs : List MEClientRequest} (hrs : s.front.accepted <+: rs)
    {e : MatchingEngine Lv Q}
    (he : MatchingEngine.run Lv Q books poolSize rs = .ok e) :
    s.sent <+: e.channel.outputs := by
  have hmore := (processor Lv Q books poolSize).run_mono
    (processor Lv Q books poolSize).start (h.begun_accepted.trans hrs)
  rw [processor_run he] at hmore
  exact h.sent_mono.trans hmore

/-- What has been passed on when the engine would send the outputs of `e` about
the requests that have been pushed. -/
theorem Consistent.passes
    (h : s.Consistent (processor Lv Q books poolSize))
    {rs : List MEClientRequest} (hrs : s.front.accepted <+: rs)
    {e : MatchingEngine Lv Q}
    (he : MatchingEngine.run Lv Q books poolSize rs = .ok e) :
    s.front.delivered <+: e.channel.responses ∧
      s.back.published <+: numbered e.channel.updates := by
  have hall := h.sent_outputs hrs he
  constructor
  · exact h.delivered_sent.trans (hall.filterMap _)
  · exact h.back.published_numbered.trans (numbered_mono (hall.filterMap _))

/-- The engine has done everything, once the threads have settled. -/
theorem Consistent.sent_settled
    (h : s.Consistent (processor Lv Q books poolSize)) (hsettled : s.Settled)
    {e : MatchingEngine Lv Q}
    (he : MatchingEngine.run Lv Q books poolSize s.front.accepted = .ok e) :
    s.books = .ok e.flush ∧ s.sent = e.channel.outputs := by
  have hqueued := h.queued
  rw [hsettled.requestQ, List.append_nil] at hqueued
  obtain ⟨-, hhistory⟩ := h.sent_of_idle hsettled.idle
  rw [← hqueued, processor_run he] at hhistory
  obtain ⟨hbooks, houtputs⟩ := Prod.mk.inj hhistory
  exact ⟨hbooks.symm, houtputs.symm⟩

/-- And everything has been passed on. -/
theorem Consistent.settled
    (h : s.Consistent (processor Lv Q books poolSize)) (hsettled : s.Settled)
    {e : MatchingEngine Lv Q}
    (he : MatchingEngine.run Lv Q books poolSize s.front.accepted = .ok e) :
    s.books = .ok e.flush ∧ s.front.delivered = e.channel.responses ∧
      s.back.published = numbered e.channel.updates ∧
      s.back.streamed = s.back.published := by
  obtain ⟨hbooks, houtputs⟩ := h.sent_settled hsettled he
  have hresponses := h.responses
  rw [hsettled.responseQ, List.append_nil] at hresponses
  obtain ⟨hpublished, hstreamed⟩ := h.back.of_empty
    hsettled.marketUpdateQ hsettled.streamerUpdates
  refine ⟨hbooks, ?_, ?_, hstreamed⟩
  · rw [hresponses, houtputs]
    rfl
  · rw [hpublished, houtputs]
    rfl

/-- **The threads refine the engine**, under every schedule and for queues of
any capacity, if the engine fails no assertion on the requests that have been
pushed, one after the other.  The books are those of the engine after the
requests that it has begun, which are those it is done with and at most one
more; it has sent all about the former, and nothing but a part of what it sends
about both.  The gateway has popped a first part of the responses, the publisher
has published a first part of the updates under their numbers, and the streamer
has popped a first part of these; they have passed on everything if nothing
waits and the queues are empty. -/
theorem threads_refine_engine
    {fifoPending : Nat}
    (hreach : Reachable c (processor Lv Q books poolSize) S fifoPending s)
    {e : MatchingEngine Lv Q}
    (he : MatchingEngine.run Lv Q books poolSize s.front.accepted = .ok e) :
    (∃ done now, MatchingEngine.run Lv Q books poolSize s.processed =
        .ok done ∧
      MatchingEngine.run Lv Q books poolSize s.begun = .ok now ∧
      s.begun <+: s.front.accepted ∧
      (s.begun = s.processed ∨ ∃ r, s.begun = s.processed ++ [r]) ∧
      s.books = .ok now.flush ∧
      done.channel.outputs <+: s.sent ∧ s.sent <+: now.channel.outputs) ∧
    s.front.delivered <+: e.channel.responses ∧
    s.back.published <+: numbered e.channel.updates ∧
    s.back.streamed <+: s.back.published ∧
    (s.Settled → s.books = .ok e.flush ∧
      s.front.delivered = e.channel.responses ∧
      s.back.published = numbered e.channel.updates ∧
      s.back.streamed = s.back.published) := by
  obtain ⟨hconsistent, hsent⟩ := hreach.sound
  have hbegun := hconsistent.begun_accepted
  have hprocessed : s.processed <+: s.begun := List.prefix_append _ _
  obtain ⟨done, hdone⟩ := run_of_prefix (hprocessed.trans hbegun) he
  obtain ⟨now, hnow⟩ := run_of_prefix hbegun he
  obtain ⟨hdelivered, hpublished⟩ := hconsistent.passes List.prefix_rfl he
  refine ⟨⟨done, now, hdone, hnow, hbegun, ?_, ?_, ?_, ?_⟩, hdelivered,
    hpublished, hconsistent.back.streamed_published,
    fun hsettled => hconsistent.settled hsettled he⟩
  · unfold begun inProgress
    cases hphase : s.phase with
    | busy outs =>
        obtain ⟨r, rest, hq⟩ :=
          List.exists_cons_of_ne_nil (hconsistent.busy outs hphase)
        right
        exact ⟨r, by rw [hq]; rfl⟩
    | test | poll | exited => exact .inl (List.append_nil _)
  · have hhistory := hconsistent.history
    rw [← begun, processor_run hnow] at hhistory
    exact (congrArg Prod.fst hhistory).symm
  · have hdone' := hsent
    unfold SentProcessed at hdone'
    rwa [processor_run hdone] at hdone'
  · have hnow' := hconsistent.sent_mono
    rwa [processor_run hnow] at hnow'

/-- An order that finds nothing to trade with. -/
def soleOrder : MEClientRequest :=
  { MEClientRequest.blank 1 with
    clientOrderId := 1
    qty := 5
    type := .fillAndKill }

/-- The order is entered, and the engine has sent one of its two responses. -/
theorem threads_refine_engine_example :
    ∃ (s : Pipeline (Except Fault (MatchingEngine MapLevels ScanPool)))
      (e : MatchingEngine MapLevels ScanPool),
      s.front.accepted = [soleOrder] ∧ s.processed = [] ∧
      s.sent.length = 1 ∧ e.channel.outputs.length = 2 ∧
      (∃ done now, MatchingEngine.run MapLevels ScanPool 4 16 s.processed =
          .ok done ∧
        MatchingEngine.run MapLevels ScanPool 4 16 s.begun = .ok now ∧
        s.begun <+: s.front.accepted ∧
        (s.begun = s.processed ∨ ∃ r, s.begun = s.processed ++ [r]) ∧
        s.books = .ok now.flush ∧
        done.channel.outputs <+: s.sent ∧ s.sent <+: now.channel.outputs) ∧
      s.front.delivered <+: e.channel.responses ∧
      s.back.published <+: numbered e.channel.updates := by
  have hrun : ∃ s e, Reachable ⟨1, 1, 1, 1⟩ (MatchingEngine.mapProcessor 16)
      Surroundings.roomy.stdSort 10000 s ∧
      MatchingEngine.run MapLevels ScanPool 4 16 s.front.accepted = .ok e ∧
      s.front.accepted = [soleOrder] ∧ s.processed = [] ∧
      s.sent.length = 1 ∧ e.channel.outputs.length = 2 :=
    ⟨_, _, Steps.of_follow [.gateway, .gateway, .gateway,
      .recv ⟨1, soleOrder, []⟩, .recvFinished, .gateway,
      .gateway, .engine, .engine, .engine] rfl, rfl, rfl, rfl, rfl, rfl⟩
  obtain ⟨s, e, hreach, he, haccepted, hprocessed, hsent, houtputs⟩ := hrun
  obtain ⟨hengine, hdelivered, hpublished, -⟩ :=
    threads_refine_engine hreach he
  exact ⟨s, e, haccepted, hprocessed, hsent, houtputs, hengine, hdelivered,
    hpublished⟩

/-- **The schedule does not matter**: of two runs of the threads with queues of
any capacities, any sorts and any buffers, in which the requests pushed in the
one are the first of those pushed in the other, one has passed on a first part
of the responses, and one a first part of the updates, that the other has
passed on.  If the same requests have been pushed and both have settled, they
have passed on the same, and the books are the same. -/
theorem schedules_agree
    {fifoPending fifoPending' : Nat}
    (hs : Reachable c (processor Lv Q books poolSize) S fifoPending s)
    (ht : Reachable c' (processor Lv Q books poolSize) S' fifoPending' t)
    (haccepted : s.front.accepted <+: t.front.accepted)
    {e : MatchingEngine Lv Q}
    (he : MatchingEngine.run Lv Q books poolSize t.front.accepted = .ok e) :
    (s.front.delivered <+: t.front.delivered ∨
      t.front.delivered <+: s.front.delivered) ∧
    (s.back.published <+: t.back.published ∨
      t.back.published <+: s.back.published) ∧
    (s.front.accepted = t.front.accepted → s.Settled → t.Settled →
      s.front.delivered = t.front.delivered ∧
      s.back.published = t.back.published ∧ s.books = t.books) := by
  obtain ⟨hsound, -⟩ := hs.sound
  obtain ⟨hsound', -⟩ := ht.sound
  obtain ⟨hdelivered, hpublished⟩ := hsound.passes haccepted he
  obtain ⟨hdelivered', hpublished'⟩ := hsound'.passes List.prefix_rfl he
  refine ⟨List.prefix_or_prefix_of_prefix hdelivered hdelivered',
    List.prefix_or_prefix_of_prefix hpublished hpublished', ?_⟩
  intro heq hsettled hsettled'
  rw [← heq] at he
  obtain ⟨hbooks, hresponses, hupdates, -⟩ := hsound.settled hsettled he
  rw [heq] at he
  obtain ⟨hbooks', hresponses', hupdates', -⟩ := hsound'.settled hsettled' he
  exact ⟨hresponses.trans hresponses'.symm, hupdates.trans hupdates'.symm,
    hbooks.trans hbooks'.symm⟩

/-- The same order, with queues of one entry and with those of `main`. -/
theorem schedules_agree_example :
    ∃ s t : Pipeline (Except Fault (MatchingEngine MapLevels ScanPool)),
      s.front.accepted = [soleOrder] ∧ t.front.accepted = [soleOrder] ∧
      s.front.delivered.length = 1 ∧ t.front.delivered.length = 2 ∧
      (s.front.delivered <+: t.front.delivered ∨
        t.front.delivered <+: s.front.delivered) ∧
      (s.back.published <+: t.back.published ∨
        t.back.published <+: s.back.published) := by
  have hruns : ∃ s t e,
      Reachable ⟨1, 1, 1, 1⟩ (MatchingEngine.mapProcessor 16)
        Surroundings.roomy.stdSort 10000 s ∧
      Reachable .ofMain (MatchingEngine.mapProcessor 16)
        Surroundings.roomy.stdSort 10000 t ∧
      MatchingEngine.run MapLevels ScanPool 4 16 t.front.accepted = .ok e ∧
      s.front.accepted = [soleOrder] ∧ t.front.accepted = [soleOrder] ∧
      s.front.delivered.length = 1 ∧ t.front.delivered.length = 2 :=
    ⟨_, _, _, Steps.of_follow [.gateway, .gateway, .gateway,
      .recv ⟨1, soleOrder, []⟩, .recvFinished, .gateway, .gateway, .gateway,
      .engine, .engine, .engine, .gateway, .gateway, .engine] rfl,
      Steps.of_follow [.gateway, .gateway, .gateway,
      .recv ⟨1, soleOrder, []⟩, .recvFinished, .gateway, .gateway, .gateway,
      .engine, .engine, .engine, .engine, .gateway, .gateway, .gateway] rfl,
      rfl, rfl, rfl, rfl, rfl⟩
  obtain ⟨s, t, e, hs, ht, he, hsaccepted, htaccepted, hone, htwo⟩ := hruns
  have hprefix : s.front.accepted <+: t.front.accepted := by
    rw [hsaccepted, htaccepted]
  obtain ⟨hdelivered, hpublished, -⟩ := schedules_agree hs ht hprefix he
  exact ⟨s, t, hsaccepted, htaccepted, hone, htwo, hdelivered, hpublished⟩

end Engine

end Pipeline

end NanoExchange
