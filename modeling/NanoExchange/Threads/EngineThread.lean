import NanoExchange.Engine.Independence
import NanoExchange.Threads.Pipeline

/-!
# The engine of the threads

What the engine thread does with a request is `processClientRequest`, from an
empty channel: what a request makes the engine send does not depend on what has
been sent before.  An engine that has failed an assertion has ended the
program; the processor keeps the fault and sends nothing more.
-/

namespace NanoExchange

open Lib

namespace Channel

/-- The channel with everything sent handed on to the queues. -/
def flush (ch : Channel) : Channel :=
  { ch with outputs := [] }

theorem perform_flush (ch : Channel) (d : Deed) :
    (ch.perform d).flush = (ch.flush.perform d).flush ∧
      (ch.perform d).outputs = ch.outputs ++ (ch.flush.perform d).outputs := by
  cases d <;> exact ⟨rfl, rfl⟩

theorem perform_flush_about
    {t : TickerId} {d : Deed} (hd : d.About t) (ch : Channel) :
    ∀ o ∈ (ch.flush.perform d).outputs, o.About t := by
  cases d with
  | send o => exact List.forall_mem_singleton.mpr hd
  | fill drafts =>
      intro o ho
      obtain ⟨d, hmem, rfl⟩ := List.mem_map.mp ho
      exact Draft.About.stamp (hd d hmem) _

/-- What deeds make a channel send does not depend on what has been sent
before. -/
theorem foldl_perform_flush (ds : List Deed) (ch : Channel) :
    (ds.foldl perform ch).flush = (ds.foldl perform ch.flush).flush ∧
      (ds.foldl perform ch).outputs =
        ch.outputs ++ (ds.foldl perform ch.flush).outputs := by
  induction ds generalizing ch with
  | nil => exact ⟨rfl, (List.append_nil _).symm⟩
  | cons d ds ih =>
      obtain ⟨hflush, houtputs⟩ := perform_flush ch d
      obtain ⟨hfold, hsent⟩ := ih (ch.perform d)
      obtain ⟨hfold', hsent'⟩ := ih (ch.flush.perform d)
      rw [hflush] at hfold hsent
      refine ⟨hfold.trans hfold'.symm, ?_⟩
      simp only [List.foldl_cons]
      rw [hsent, hsent', houtputs, List.append_assoc]

/-- Deeds about a ticker make a channel send messages about it. -/
theorem foldl_perform_about
    {t : TickerId} (ds : List Deed) (hds : ∀ d ∈ ds, Deed.About t d)
    (ch : Channel) :
    ∀ o ∈ (ds.foldl perform ch.flush).outputs, o.About t := by
  induction ds generalizing ch with
  | nil => simp [flush]
  | cons d ds ih =>
      obtain ⟨hd, hds⟩ := List.forall_mem_cons.mp hds
      intro o ho
      rw [List.foldl_cons, (foldl_perform_flush ds _).2] at ho
      rcases List.mem_append.mp ho with ho | ho
      · exact perform_flush_about hd ch o ho
      · exact ih hds _ o ho

end Channel

namespace MatchingEngine

variable {Lv P : Type} [LevelTable Lv] [BookImpl Lv] [ObjectPool P]

/-- The engine with everything sent handed on to the queues. -/
def flush (e : MatchingEngine Lv P) : MatchingEngine Lv P :=
  { e with channel := e.channel.flush }

variable [ObliviousBook Lv]

/-- **A request makes the engine send the same, whatever it has sent
before**, and only messages about its ticker. -/
theorem processClientRequest_flush
    {e e' : MatchingEngine Lv P} {r : MEClientRequest}
    (h : e.processClientRequest r = .ok e') :
    ∃ last : MatchingEngine Lv P, e.flush.processClientRequest r = .ok last ∧
      e'.flush = last.flush ∧
      e'.channel.outputs = e.channel.outputs ++ last.channel.outputs ∧
      ∀ o ∈ last.channel.outputs, o.About r.tickerId := by
  obtain ⟨b, b', ds, hb, habout, hok, rfl⟩ := processClientRequest_cases h
  obtain ⟨hflush, houtputs⟩ := Channel.foldl_perform_flush ds e.channel
  refine ⟨{ tickerOrderBook := e.tickerOrderBook.set r.tickerId b'
            channel := ds.foldl Channel.perform e.channel.flush },
    ?_, ?_, houtputs, Channel.foldl_perform_about ds habout e.channel⟩
  · unfold processClientRequest
    simp only [flush, hb, hok, ok_bind]
  · exact congrArg (MatchingEngine.mk _) hflush

/-- The matching engine, as the threads see it. -/
def processor (Lv P : Type) [LevelTable Lv] [BookImpl Lv] [ObliviousBook Lv]
    [ObjectPool P] (books poolSize : Nat) :
    Processor (Except Fault (MatchingEngine Lv P)) where
  start := .ok (init books poolSize)
  process
    | .ok e, r =>
        match e.flush.processClientRequest r with
        | .ok e' => (.ok e'.flush, e'.channel.outputs)
        | .error f => (.error f, [])
    | .error f, _ => (.error f, [])
  incremental s r u hu := by
    cases s with
    | error f => simp at hu
    | ok e =>
        dsimp only at hu
        cases h : e.flush.processClientRequest r with
        | error f => simp [h] at hu
        | ok e' =>
            rw [h] at hu
            obtain ⟨last, hlast, -, -, habout⟩ := processClientRequest_flush h
            obtain rfl : e' = last := Except.ok.inj (h.symm.trans hlast)
            exact (habout _ hu).2

/-- The books of `main` in the default build. -/
abbrev mapProcessor (poolSize : Nat) :
    Processor (Except Fault (MatchingEngine MapLevels ScanPool)) :=
  processor MapLevels ScanPool 4 poolSize

/-- **The processor sends what the engine sends.** -/
theorem processor_run
    {books poolSize : Nat} {rs : List MEClientRequest}
    {e : MatchingEngine Lv P} (h : run Lv P books poolSize rs = .ok e) :
    (processor Lv P books poolSize).run
        (processor Lv P books poolSize).start rs =
      (.ok e.flush, e.channel.outputs) := by
  induction rs using List.reverseRecOn generalizing e with
  | nil =>
      obtain rfl := Except.ok.inj h
      rfl
  | append_singleton rs r ih =>
      obtain ⟨e₁, he₁, hlast⟩ := foldlM_append_ok h
      have hstep : e₁.processClientRequest r = .ok e := by
        cases hr : e₁.processClientRequest r with
        | error f =>
            rw [List.foldlM_cons, hr] at hlast
            cases hlast
        | ok e₂ =>
            rw [List.foldlM_cons, hr] at hlast
            exact hlast
      obtain ⟨last, hok, hflush, houtputs, -⟩ := processClientRequest_flush hstep
      have hprocess : (processor Lv P books poolSize).process (.ok e₁.flush) r =
          (.ok last.flush, last.channel.outputs) := by
        have hflushed : e₁.flush.flush = e₁.flush := rfl
        simp only [processor, hflushed, hok]
      rw [Processor.run_append_singleton, ih he₁, hprocess, hflush, houtputs]

end MatchingEngine

end NanoExchange
