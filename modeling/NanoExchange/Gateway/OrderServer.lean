import NanoExchange.Gateway.Fifo
import NanoExchange.Gateway.Ouch
import NanoExchange.Lib.Outcome

/-!
# The order gateway

`order_server.h`: bytes that arrive on a socket are appended to its receive
buffer and cut into messages by the type byte; each message is decoded, and the
request is staged in the FIFO sequencer.

A step of the gateway is an `Input`: bytes arrive, a batch is published, a
client disconnects, or the engine takes the next request off the request queue.
A run is any list of inputs, so any interleaving of any set of clients.  The
QuantLink TCP server, which calls back with the bytes it has read, and the
lock-free queues are not part of this repository; they are the inputs, and the
lists `inbound` and `requestQ`.

`decoded` and `handled` keep the history of a run: all requests that have been
decoded, and those that the engine has taken.
-/

namespace NanoExchange

open Lib

/-- What the gateway relies on and does not control: the sort of the standard
library, and the room that the `n`-th call of `publishPendingOrders` finds in
the request queue. -/
structure Surroundings where
  stdSort : StdSort
  room : Nat → Nat

structure OrderServer where
  fifo : FifoNdProcess
  tokenManager : OrderTokenManager
  fdToClientId : Nat → Option ClientId := fun _ => none
  clientToSocket : ClientId → Option Nat := fun _ => none
  nextClientId : ClientId := 1
  /-- The valid bytes of each socket's receive buffer. -/
  inbound : Nat → List UInt8 := fun _ => []
  requestQ : List RecvClientRequest := []
  /-- Calls of `publishPendingOrders` so far. -/
  publishes : Nat := 0
  decoded : List RecvClientRequest := []
  handled : List RecvClientRequest := []

/-- What can happen at the gateway. -/
inductive Input where
  /-- Bytes arrive on a socket, with their kernel timestamp. -/
  | recv (fd : Nat) (bytes : List UInt8) (kernelTime : Nat)
  /-- `onRecvFinished`, or the retry in the run loop. -/
  | publish
  | disconnect (fd : Nat)
  /-- The engine takes the next request. -/
  | process

namespace OrderServer

/-- The constructor. -/
def init (fifoPending tokenPoolSz : Nat) : OrderServer where
  fifo := FifoNdProcess.init fifoPending
  tokenManager := OrderTokenManager.init tokenPoolSz

variable (L : OuchLayout) (env : Surroundings)

/-- `fifo_.publishPendingOrders()` -/
def publishPendingOrders (s : OrderServer) : OrderServer :=
  let res := s.fifo.publishPendingOrders env.stdSort (env.room s.publishes)
  { s with
    fifo := res.1
    requestQ := s.requestQ ++ res.2
    publishes := s.publishes + 1 }

/-- Stage a decoded request; if the buffer is full, publish, and if it still
is, grow it. -/
def stage (s : OrderServer) (x : RecvClientRequest) :
    Except Fault OrderServer :=
  match s.fifo.addToPending x with
  | some fifo => .ok { s with fifo := fifo }
  | none =>
      let s := s.publishPendingOrders env
      match s.fifo.addToPending x with
      | some fifo => .ok { s with fifo := fifo }
      | none =>
          match s.fifo.growPending.addToPending x with
          | some fifo => .ok { s with fifo := fifo }
          | none => .error .assertFailed

/-- The requests that are on their way to the engine. -/
def underway (s : OrderServer) : List RecvClientRequest :=
  s.requestQ ++ s.fifo.pending

/-- **What publishing and staging leave as it is**: everything but the
sequencer and the queue, whose requests are the same together. -/
structure Moves (s s' : OrderServer) (l : List RecvClientRequest) : Prop where
  fits : s'.fifo.Fits
  underway : s'.underway.Perm (s.underway ++ l)
  tokenManager : s'.tokenManager = s.tokenManager
  decoded : s'.decoded = s.decoded
  handled : s'.handled = s.handled

theorem publishPendingOrders_moves
    {s : OrderServer} (h : s.fifo.Fits) :
    Moves s (s.publishPendingOrders env) [] where
  fits := h.publish _ _
  underway := by
    show (s.requestQ ++ _ ++ _).Perm _
    rw [List.append_assoc, List.append_nil]
    exact (s.fifo.publishPendingOrders_perm _ _).append_left _
  tokenManager := rfl
  decoded := rfl
  handled := rfl

/-- **Staging never fails**: a decoded request joins those under way. -/
theorem stage_ok
    {s : OrderServer} (h : s.fifo.Fits) (x : RecvClientRequest) :
    ∃ s', s.stage env x = .ok s' ∧ Moves s s' [x] := by
  have hadd : ∀ {t : OrderServer} {f : FifoNdProcess}, Moves s t [] →
      f.Fits → f.pending = t.fifo.pending ++ [x] →
      Moves s { t with fifo := f } [x] := by
    intro t f ht hf hpending
    refine ⟨hf, ?_, ht.tokenManager, ht.decoded, ht.handled⟩
    show (t.requestQ ++ f.pending).Perm _
    rw [hpending, ← List.append_assoc]
    have hperm := ht.underway.append_right [x]
    rwa [List.append_nil] at hperm
  have hself : Moves s s [] :=
    ⟨h, by rw [List.append_nil], rfl, rfl, rfl⟩
  have hpublish := publishPendingOrders_moves env h
  unfold stage
  cases hfirst : s.fifo.addToPending x with
  | some f =>
      obtain ⟨hf, hpending⟩ := h.add hfirst
      exact ⟨_, rfl, hadd hself hf hpending⟩
  | none =>
      dsimp only
      cases hsecond : (s.publishPendingOrders env).fifo.addToPending x with
      | some f =>
          obtain ⟨hf, hpending⟩ := hpublish.fits.add hsecond
          exact ⟨_, rfl, hadd hpublish hf hpending⟩
      | none =>
          obtain ⟨f, hthird, hf, hpending⟩ := hpublish.fits.grow x
          dsimp only
          rw [hthird]
          exact ⟨_, rfl, hadd hpublish hf hpending⟩

/-- The body of the loop of `onRecv` for one complete message. -/
def onMessage (s : OrderServer) (cid : ClientId) (kernelTime : Nat)
    (message : List UInt8) : Except Fault OrderServer :=
  let res := L.decodeOuch message cid s.tokenManager
  let s := { s with tokenManager := res.2 }
  match res.1 with
  | none => .ok s
  | some request =>
      let x : RecvClientRequest := ⟨kernelTime, request, message⟩
      { s with decoded := s.decoded ++ [x] }.stage env x

/-- The loop of `onRecv` over the bytes from `offset` on; it returns those
that are left. -/
def onRecvLoop (cid : ClientId) (kernelTime : Nat) :
    Nat → List UInt8 → OrderServer → Except Fault (OrderServer × List UInt8)
  | _, [], s => .ok (s, [])
  | 0, _ :: _, _ => .error .outOfFuel
  | fuel + 1, t :: rest, s =>
      let msgLen := L.ouchMsgSize t
      if msgLen = 0 then onRecvLoop cid kernelTime fuel rest s
      else if (t :: rest).length < msgLen then .ok (s, t :: rest)
      else do
        let s ← s.onMessage L env cid kernelTime ((t :: rest).take msgLen)
        onRecvLoop cid kernelTime fuel ((t :: rest).drop msgLen) s

/-- The invariant rule of the loop: it goes through, and what every message
keeps holds at its end. -/
theorem onRecvLoop_invariant
    {cid : ClientId} {kernelTime : Nat} (I : OrderServer → Prop)
    (hmessage : ∀ s message, I s →
      ∃ s', s.onMessage L env cid kernelTime message = .ok s' ∧ I s')
    {fuel : Nat} {data : List UInt8} (hfuel : data.length ≤ fuel)
    {s : OrderServer} (h : I s) :
    ∃ s' rest, onRecvLoop L env cid kernelTime fuel data s = .ok (s', rest) ∧
      I s' := by
  induction fuel generalizing data s with
  | zero =>
      obtain rfl := List.length_eq_zero_iff.mp (Nat.le_zero.mp hfuel)
      exact ⟨s, [], rfl, h⟩
  | succ fuel ih =>
      cases data with
      | nil => exact ⟨s, [], rfl, h⟩
      | cons t rest =>
          rw [List.length_cons] at hfuel
          unfold onRecvLoop
          by_cases hzero : L.ouchMsgSize t = 0
          · simp only [hzero, if_true]
            exact ih (Nat.le_of_succ_le_succ hfuel) h
          · by_cases hshort : (t :: rest).length < L.ouchMsgSize t
            · simp only [hzero, hshort, if_true, if_false]
              exact ⟨s, _, rfl, h⟩
            · obtain ⟨s₁, hs₁, h₁⟩ := hmessage s _ h
              simp only [hzero, hshort, if_false]
              rw [hs₁, ok_bind]
              refine ih ?_ h₁
              rw [List.length_drop, List.length_cons]
              omega

def registerClient (s : OrderServer) (fd : Nat) : OrderServer :=
  { s with
    fdToClientId := Function.update s.fdToClientId fd (some s.nextClientId)
    clientToSocket :=
      Function.update s.clientToSocket s.nextClientId (some fd)
    nextClientId := (s.nextClientId + 1) % wordSize }

/-- `onRecv`, after the bytes have been appended to the receive buffer. -/
def onRecv (s : OrderServer) (fd : Nat) (kernelTime : Nat) :
    Except Fault OrderServer := do
  let s := if s.fdToClientId fd = none then s.registerClient fd else s
  let cid := (s.fdToClientId fd).getD 0
  let (s, rest) ← onRecvLoop L env cid kernelTime (s.inbound fd).length
    (s.inbound fd) s
  .ok { s with inbound := Function.update s.inbound fd rest }

/-- `onDisconnect`; the socket and its buffer are gone afterwards. -/
def onDisconnect (s : OrderServer) (fd : Nat) : OrderServer :=
  match s.fdToClientId fd with
  | none => { s with inbound := Function.update s.inbound fd [] }
  | some cid =>
      { s with
        clientToSocket := Function.update s.clientToSocket cid none
        fdToClientId := Function.update s.fdToClientId fd none
        inbound := Function.update s.inbound fd [] }

def step (s : OrderServer) : Input → Except Fault OrderServer
  | .recv fd bytes kernelTime =>
      let inbound := Function.update s.inbound fd (s.inbound fd ++ bytes)
      { s with inbound := inbound }.onRecv L env fd kernelTime
  | .publish => .ok (s.publishPendingOrders env)
  | .disconnect fd => .ok (s.onDisconnect fd)
  | .process =>
      match s.requestQ with
      | [] => .ok s
      | x :: q => .ok { s with requestQ := q, handled := s.handled ++ [x] }

/-- A run of a fresh gateway. -/
def run (fifoPending tokenPoolSz : Nat) (inputs : List Input) :
    Except Fault OrderServer :=
  inputs.foldlM (fun s i => s.step L env i) (init fifoPending tokenPoolSz)

end OrderServer

end NanoExchange
