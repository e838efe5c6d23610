import NanoExchange.Engine.Messages
import NanoExchange.Threads.FrontEnd
import NanoExchange.Threads.BackEnd

/-!
# The threads of the exchange

The gateway, the engine, the publisher, the streamer and `main`, and the four
bounded queues between the first four.  A step is one action of one thread, in
any order; an action that is blocked or whose thread has exited is not enabled.

`main` stops the threads one after the other: it clears the `run_` flag of a
thread, and joins it.  So the flags follow from how far it has got.

`pushBlocking` spins while its queue is full, and a slot of a queue becomes free
when the reader calls `updateNextRead`: the engine's request and the publisher's
update stay in their queues while they are worked on.

What the engine sends about a request is up to the order books, and is a
parameter, `Processor`.  `processed` and `sent` are the history of the engine.
-/

namespace NanoExchange

open Lib

/-- What the engine does with a request: its books afterwards, and what it
sends.  It only sends updates that the publisher encodes. -/
structure Processor (σ : Type) where
  start : σ
  process : σ → MEClientRequest → σ × List Output
  incremental : ∀ s r u,
    Output.update u ∈ (process s r).2 → u.type.Incremental

namespace Processor

variable {σ : Type} (P : Processor σ)

/-- Requests, one after the other. -/
def run (s : σ) : List MEClientRequest → σ × List Output
  | [] => (s, [])
  | r :: rs =>
      let next := P.process s r
      let last := run next.1 rs
      (last.1, next.2 ++ last.2)

theorem run_append_singleton
    (s : σ) (rs : List MEClientRequest) (r : MEClientRequest) :
    P.run s (rs ++ [r]) =
      ((P.process (P.run s rs).1 r).1,
        (P.run s rs).2 ++ (P.process (P.run s rs).1 r).2) := by
  induction rs generalizing s with
  | nil => simp [run]
  | cons r' rs ih => simp [run, ih, List.append_assoc]

theorem run_replicate
    {s : σ} {r : MEClientRequest} {os : List Output}
    (h : P.process s r = (s, os)) (n : Nat) :
    P.run s (List.replicate n r) = (s, (List.replicate n os).flatten) := by
  induction n with
  | zero => rfl
  | succ n ih => simp [List.replicate_succ, run, h, ih]

end Processor

/-- The effective capacities of the queues; a queue of size `n` holds
`n - 1` entries. -/
structure Capacities where
  requestQ : Nat
  responseQ : Nat
  marketUpdateQ : Nat
  streamerUpdates : Nat

/-- Every queue has room for an entry. -/
structure Capacities.Positive (c : Capacities) : Prop where
  requestQ : 1 ≤ c.requestQ
  responseQ : 1 ≤ c.responseQ
  marketUpdateQ : 1 ≤ c.marketUpdateQ
  streamerUpdates : 1 ≤ c.streamerUpdates

/-- The queues of `main`, with `QUEUE_SIZE` and `SNAPSHOT_Q_SIZE`. -/
def Capacities.ofMain : Capacities where
  requestQ := 65536 - 1
  responseQ := 65536 - 1
  marketUpdateQ := 65536 - 1
  streamerUpdates := 65536 - 1

/-- How far the shutdown sequence of `main` has got. -/
inductive MainPhase where
  | running
  /-- `gateway.stop()` has cleared the flag and joins. -/
  | stopGateway
  | stopEngine
  | stopPublisher
  /-- `publisher.stop()` stops the streamer after its own thread. -/
  | stopStreamer
  | finished
deriving DecidableEq

namespace MainPhase

/-- The `run_` flag of the gateway. -/
def gatewayRuns : MainPhase → Bool
  | .running => true
  | _ => false

def engineRuns : MainPhase → Bool
  | .running | .stopGateway => true
  | _ => false

def publisherRuns : MainPhase → Bool
  | .running | .stopGateway | .stopEngine => true
  | _ => false

def streamerRuns : MainPhase → Bool
  | .stopStreamer | .finished => false
  | _ => true

end MainPhase

/-- Where the engine is in its loop. -/
inductive EnginePhase where
  /-- `while (run_.load(...))` -/
  | test
  /-- `getNextRead` -/
  | poll
  /-- `processClientRequest`, with what is left to send. -/
  | busy (outs : List Output)
  | exited
deriving DecidableEq

structure Pipeline (σ : Type) where
  main : MainPhase := .running
  front : FrontEnd
  phase : EnginePhase := .test
  books : σ
  back : BackEnd := {}
  processed : List MEClientRequest := []
  sent : List Output := []

inductive ThreadAction where
  | main
  | gateway
  /-- The server hands a decoded request to the gateway. -/
  | recv (x : RecvClientRequest)
  | recvFinished
  | engine
  | publisher
  | streamer

/-- The action is a step that a thread of the exchange takes by itself. -/
def ThreadAction.Internal : ThreadAction → Prop
  | .gateway | .engine | .publisher | .streamer => True
  | .main | .recv _ | .recvFinished => False

namespace Pipeline

variable {σ : Type} (c : Capacities) (P : Processor σ) (S : StdSort)

/-- All threads are about to test their flags for the first time. -/
def init (P : Processor σ) (fifoPending : Nat) : Pipeline σ where
  front := { fifo := .init fifoPending }
  books := P.start

/-- A step of the engine thread. -/
def engine (s : Pipeline σ) : Option (Pipeline σ) :=
  match s.phase with
  | .test =>
      some { s with phase := if s.main.engineRuns then .poll else .exited }
  | .poll =>
      match s.front.requestQ with
      | [] => some { s with phase := .test }
      | r :: _ =>
          some { s with
            books := (P.process s.books r).1
            phase := .busy (P.process s.books r).2 }
  | .busy (.response resp :: outs) =>
      if s.front.responseQ.length < c.responseQ then
        some { s with
          front := { s.front with responseQ := s.front.responseQ ++ [resp] }
          phase := .busy outs
          sent := s.sent ++ [.response resp] }
      else none
  | .busy (.update u :: outs) =>
      if s.back.marketUpdateQ.length < c.marketUpdateQ then
        some { s with
          back := { s.back with marketUpdateQ := s.back.marketUpdateQ ++ [u] }
          phase := .busy outs
          sent := s.sent ++ [.update u] }
      else none
  | .busy [] =>
      some { s with
        front := { s.front with requestQ := s.front.requestQ.tail }
        phase := .test
        processed := s.processed ++ s.front.requestQ.take 1 }
  | .exited => none

/-- The shutdown sequence: a join waits until its thread has exited. -/
def mainThread (s : Pipeline σ) : Option (Pipeline σ) :=
  match s.main with
  | .running => some { s with main := .stopGateway }
  | .stopGateway =>
      if s.front.phase = .exited then some { s with main := .stopEngine }
      else none
  | .stopEngine =>
      if s.phase = .exited then some { s with main := .stopPublisher }
      else none
  | .stopPublisher =>
      if s.back.publisherPhase = .exited then
        some { s with main := .stopStreamer }
      else none
  | .stopStreamer =>
      if s.back.streamerPhase = .exited then some { s with main := .finished }
      else none
  | .finished => none

def step (s : Pipeline σ) : ThreadAction → Option (Pipeline σ)
  | .main => s.mainThread
  | .gateway =>
      (s.front.gateway S c.requestQ s.main.gatewayRuns).map fun front =>
        { s with front := front }
  | .recv x =>
      (s.front.recv S x).map fun front => { s with front := front }
  | .recvFinished =>
      (s.front.recvFinished S).map fun front => { s with front := front }
  | .engine => s.engine c P
  | .publisher =>
      (s.back.publisher c.streamerUpdates s.main.publisherRuns).map fun back =>
        { s with back := back }
  | .streamer =>
      (s.back.streamer s.main.streamerRuns).map fun back =>
        { s with back := back }

/-- A run from the start whose steps all meet the condition leads to the
state. -/
def ReachableBy (ok : Pipeline σ → ThreadAction → Prop) (fifoPending : Nat)
    (s : Pipeline σ) : Prop :=
  Steps (step c P S) ok (init P fifoPending) s

/-- A run under any schedule leads to the state. -/
abbrev Reachable (fifoPending : Nat) (s : Pipeline σ) : Prop :=
  ReachableBy c P S (fun _ _ => True) fifoPending s

/-- The request that the engine is at work on. -/
def inProgress (s : Pipeline σ) : List MEClientRequest :=
  match s.phase with
  | .busy _ => s.front.requestQ.take 1
  | _ => []

/-- What the engine has yet to send about it. -/
def unsent (s : Pipeline σ) : List Output :=
  match s.phase with
  | .busy outs => outs
  | _ => []

/-- **The invariant of the threads**: nothing is lost or made up between the
queues. -/
structure Consistent (s : Pipeline σ) : Prop where
  queued : s.front.accepted = s.processed ++ s.front.requestQ
  busy : ∀ outs, s.phase = .busy outs → s.front.requestQ ≠ []
  history : P.run P.start (s.processed ++ s.inProgress) =
    (s.books, s.sent ++ s.unsent)
  responses : s.front.delivered ++ s.front.responseQ =
    s.sent.filterMap Output.response?
  back : s.back.Serves (s.sent.filterMap Output.update?)
  fits : s.front.fifo.Fits

end Pipeline

end NanoExchange
