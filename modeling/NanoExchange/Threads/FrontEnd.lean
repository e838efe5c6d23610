import NanoExchange.Gateway.Fifo
import NanoExchange.Lib.Reach

/-!
# The gateway thread

The run loop of `order_server.h` and the two queues between the gateway and the
engine.  One step of the thread is one turn of one of its loops: a response is
popped, or a pending request is tried against the request queue.

The QuantLink server calls back from `poll` and `sendAndRecv`: `recv` stages a
decoded request, and `recvFinished` is `onRecvFinished`.  When and how often it
calls is not known, so each is an action of its own, enabled while the thread
is in the server.

`accepted` and `delivered` are the history of the queues: the requests that have
been pushed to the one, and the responses that have been popped off the other.
-/

namespace NanoExchange

open Lib

namespace FifoNdProcess

/-- The call of `std::sort` in `publishPendingOrders`. -/
def sortPending (S : StdSort) (f : FifoNdProcess) : FifoNdProcess :=
  if f.pending = [] then f
  else { f with pending := f.ordered S, pendingSorted := true }

/-- The end of `onRecv` on a full buffer: add the request, or grow the buffer
and add it. -/
def retain (f : FifoNdProcess) (x : RecvClientRequest) :
    Option FifoNdProcess :=
  match f.addToPending x with
  | some f => some f
  | none => f.growPending.addToPending x

theorem sortPending_perm (S : StdSort) (f : FifoNdProcess) :
    (f.sortPending S).pending.Perm f.pending := by
  unfold sortPending
  split_ifs
  · exact List.Perm.refl _
  · exact f.ordered_perm S

theorem Fits.sortPending {f : FifoNdProcess} (h : f.Fits) (S : StdSort) :
    (f.sortPending S).Fits := by
  have hlen := (f.sortPending_perm S).length_eq
  have hcapacity : (f.sortPending S).capacity = f.capacity := by
    unfold FifoNdProcess.sortPending
    split_ifs <;> rfl
  exact ⟨hcapacity ▸ h.positive, hcapacity ▸ hlen ▸ h.fits⟩

theorem Fits.retain {f : FifoNdProcess} (h : f.Fits) (x : RecvClientRequest) :
    ∃ f', f.retain x = some f' ∧ f'.Fits ∧ f'.pending = f.pending ++ [x] := by
  unfold FifoNdProcess.retain
  cases hadd : f.addToPending x with
  | some f' => exact ⟨f', rfl, h.add hadd⟩
  | none => exact h.grow x

end FifoNdProcess

/-- Where the gateway is in its loop. -/
inductive GatewayPhase where
  /-- `while (run_.load(...))` -/
  | test
  /-- `drainResponses` -/
  | drain
  /-- `publishPendingOrders`; `onRecv` calls it with a request in hand. -/
  | publish (held : Option RecvClientRequest)
  /-- `server_.poll()` and `server_.sendAndRecv()` -/
  | receive
  | exited
deriving DecidableEq

structure FrontEnd where
  phase : GatewayPhase := .test
  fifo : FifoNdProcess
  requestQ : List MEClientRequest := []
  responseQ : List MEClientResponse := []
  accepted : List MEClientRequest := []
  delivered : List MEClientResponse := []

namespace FrontEnd

/-- The request that `onRecv` has in hand. -/
def held (f : FrontEnd) : List RecvClientRequest :=
  match f.phase with
  | .publish (some x) => [x]
  | _ => []

/-- The decoded requests that have not been pushed yet. -/
def waiting (f : FrontEnd) : List RecvClientRequest :=
  f.fifo.pending ++ f.held

section Steps

variable (S : StdSort)

/-- The call of `publishPendingOrders`. -/
def startPublish (f : FrontEnd) (held : Option RecvClientRequest) : FrontEnd :=
  { f with phase := .publish held, fifo := f.fifo.sortPending S }

/-- The return from `publishPendingOrders`. -/
def finishPublish (f : FrontEnd) : Option RecvClientRequest → Option FrontEnd
  | none => some { f with phase := .receive }
  | some x => (f.fifo.retain x).map fun fifo =>
      { f with phase := .receive, fifo := fifo }

/-- A step of the gateway thread, under the value of `run_` and the effective
capacity of the request queue. -/
def gateway (capacity : Nat) (run : Bool) (f : FrontEnd) : Option FrontEnd :=
  match f.phase with
  | .test => some { f with phase := if run then .drain else .exited }
  | .drain =>
      match f.responseQ with
      | [] => some (f.startPublish S none)
      | resp :: rest =>
          some { f with
            responseQ := rest
            delivered := f.delivered ++ [resp] }
  | .publish held =>
      match f.fifo.pending with
      | [] => f.finishPublish held
      | x :: rest =>
          if f.requestQ.length < capacity then
            some { f with
              fifo := { f.fifo with pending := rest }
              requestQ := f.requestQ ++ [x.request]
              accepted := f.accepted ++ [x.request] }
          else f.finishPublish held
  | .receive => some { f with phase := .test }
  | .exited => none

/-- The server hands over a decoded request. -/
def recv (f : FrontEnd) (x : RecvClientRequest) : Option FrontEnd :=
  match f.phase with
  | .receive =>
      match f.fifo.addToPending x with
      | some fifo => some { f with fifo := fifo }
      | none => some (f.startPublish S (some x))
  | _ => none

/-- `onRecvFinished` -/
def recvFinished (f : FrontEnd) : Option FrontEnd :=
  match f.phase with
  | .receive => some (f.startPublish S none)
  | _ => none

end Steps

/-- **What a step of the gateway can do**: it pushes some of the waiting
requests, pops some responses, and loses none of either. -/
structure Moves (f f' : FrontEnd) : Prop where
  forwards : ∃ l : List RecvClientRequest,
    f'.requestQ = f.requestQ ++ l.map RecvClientRequest.request ∧
    f'.accepted = f.accepted ++ l.map RecvClientRequest.request ∧
    (l ++ f'.waiting).Perm f.waiting
  responses : f'.delivered ++ f'.responseQ = f.delivered ++ f.responseQ
  fits : f'.fifo.Fits

namespace Moves

variable {f f' f'' : FrontEnd}

/-- A step that pushes nothing and pops nothing. -/
theorem of_waiting
    (hrequestQ : f'.requestQ = f.requestQ)
    (haccepted : f'.accepted = f.accepted)
    (hwaiting : f'.waiting.Perm f.waiting)
    (hresponses : f'.delivered ++ f'.responseQ = f.delivered ++ f.responseQ)
    (hfits : f'.fifo.Fits) :
    Moves f f' where
  forwards := ⟨[], by rw [hrequestQ]; exact (List.append_nil _).symm,
    by rw [haccepted]; exact (List.append_nil _).symm, hwaiting⟩
  responses := hresponses
  fits := hfits

theorem startPublish (S : StdSort) (h : f.fifo.Fits) (hheld : f.held = []) :
    Moves f (f.startPublish S none) := by
  refine of_waiting rfl rfl ?_ rfl (h.sortPending S)
  show ((f.fifo.sortPending S).pending ++ []).Perm (f.fifo.pending ++ f.held)
  rw [hheld]
  exact (f.fifo.sortPending_perm S).append_right []

/-- `publishPendingOrders` returns, and a request in hand joins the pending
ones. -/
theorem finishPublish
    (h : f.fifo.Fits) {held : Option RecvClientRequest}
    (hphase : f.phase = .publish held) :
    ∃ f', f.finishPublish held = some f' ∧ Moves f f' ∧
      f'.phase = .receive ∧ f'.responseQ = f.responseQ := by
  cases held with
  | none =>
      refine ⟨_, rfl, of_waiting rfl rfl ?_ rfl h, rfl, rfl⟩
      simp [waiting, FrontEnd.held, hphase]
  | some x =>
      obtain ⟨fifo, hretain, hfits, hpending⟩ := h.retain x
      refine ⟨{ f with phase := .receive, fifo := fifo }, ?_,
        of_waiting rfl rfl ?_ rfl hfits, rfl, rfl⟩
      · simp [FrontEnd.finishPublish, hretain]
      · simp [waiting, FrontEnd.held, hphase, hpending]

/-- A pending request is pushed. -/
theorem push
    (h : f.fifo.Fits) {x : RecvClientRequest} {rest : List RecvClientRequest}
    (hpending : f.fifo.pending = x :: rest) :
    Moves f { f with
      fifo := { f.fifo with pending := rest }
      requestQ := f.requestQ ++ [x.request]
      accepted := f.accepted ++ [x.request] } where
  forwards := by
    refine ⟨[x], rfl, rfl, ?_⟩
    show ([x] ++ (rest ++ f.held)).Perm (f.fifo.pending ++ f.held)
    rw [hpending]
    exact List.Perm.refl _
  responses := rfl
  fits := by
    have hfits := h.fits
    rw [hpending, List.length_cons] at hfits
    exact ⟨h.positive, Nat.le_of_succ_le hfits⟩

theorem gateway
    {S : StdSort} {capacity : Nat} {run : Bool} (h : f.fifo.Fits)
    (hstep : f.gateway S capacity run = some f') :
    Moves f f' := by
  unfold FrontEnd.gateway at hstep
  cases hphase : f.phase with
  | test =>
      simp only [hphase, Option.some.injEq] at hstep
      subst hstep
      refine of_waiting rfl rfl ?_ rfl h
      cases run <;> simp [waiting, held, hphase]
  | drain =>
      cases hq : f.responseQ with
      | nil =>
          simp only [hphase, hq, Option.some.injEq] at hstep
          subst hstep
          exact Moves.startPublish S h (by simp [held, hphase])
      | cons resp rest =>
          simp only [hphase, hq, Option.some.injEq] at hstep
          subst hstep
          refine of_waiting rfl rfl ?_ ?_ h
          · simp [waiting, held, hphase]
          · simp [hq]
  | publish held =>
      obtain ⟨f₁, hf₁, hmoves, -⟩ := finishPublish h hphase
      cases hpending : f.fifo.pending with
      | nil =>
          simp only [hphase, hpending, hf₁, Option.some.injEq] at hstep
          exact hstep ▸ hmoves
      | cons x rest =>
          simp only [hphase, hpending] at hstep
          split_ifs at hstep
          · have hpush := push h hpending
            rw [hphase] at hpush
            exact Option.some.inj hstep ▸ hpush
          · rw [hf₁] at hstep
            exact Option.some.inj hstep ▸ hmoves
  | receive =>
      simp only [hphase, Option.some.injEq] at hstep
      subst hstep
      refine of_waiting rfl rfl ?_ rfl h
      simp [waiting, held, hphase]
  | exited => simp only [hphase, reduceCtorEq] at hstep

end Moves

end FrontEnd

end NanoExchange
