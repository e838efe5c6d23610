import NanoExchange.Engine.Ladder

/-!
# How events are reported

The responses and the market updates of an event, taken apart.  Only a fill is
reported as an execution and under a match id; its three messages are the same
in both dialects but for the match id of the trade.
-/

namespace NanoExchange

open Lib

namespace Event

/-- The match id of a fill. -/
def fillId : Event → Option OrderId
  | .filled _ _ _ _ matchId => some matchId
  | _ => none

/-- The responses that report an event. -/
def responses (d : Dialect) (e : Event) : List MEClientResponse :=
  (e.outputs d).filterMap Output.response?

/-- The market updates that report an event. -/
def updates (d : Dialect) (e : Event) : List MEMarketUpdate :=
  (e.outputs d).filterMap Output.update?

/-- Only fills are reported under a match id. -/
theorem responses_of_fillId_none
    {e : Event} (h : e.fillId = none) (d : Dialect) :
    ∀ r ∈ e.responses d, r.status ≠ .executed ∧ r.matchId = orderIdInvalid := by
  cases e with
  | accepted a => simp [responses, outputs, acceptedResponse]
  | modified a old =>
      simp [responses, outputs, modifiedResponse]
  | filled => cases h
  | rested replacing => cases replacing <;> simp [responses, outputs]
  | killed replacing =>
      cases replacing with
      | false => simp [responses, outputs, killedResponse]
      | true =>
          cases hd : d.reportsKilledReplacement <;>
            simp [responses, outputs, hd, killedResponse]
  | canceled => simp [responses, outputs, canceledResponse]
  | excessive => simp [responses, outputs, excessiveResponse]
  | unknown => simp [responses, outputs, rejectedResponse]

theorem updates_of_fillId_none
    {e : Event} (h : e.fillId = none) (d : Dialect) :
    ∀ u ∈ e.updates d, u.type ≠ .trade ∧ u.matchId = orderIdInvalid := by
  cases e with
  | accepted => simp [updates, outputs]
  | modified => simp [updates, outputs, modifyUpdate]
  | filled => cases h
  | rested replacing =>
      cases replacing <;> simp [updates, outputs, addUpdate]
  | killed replacing =>
      cases replacing with
      | false => simp [updates, outputs]
      | true =>
          cases hd : d.reportsKilledReplacement <;>
            simp [updates, outputs, hd, cancelUpdate]
  | canceled => simp [updates, outputs, cancelUpdate]
  | excessive => simp [updates, outputs]
  | unknown => simp [updates, outputs]

/-- The executions among the responses do not depend on the dialect. -/
theorem executions_eq (e : Event) (d d' : Dialect) :
    (e.responses d).filter (fun r => r.status = .executed) =
      (e.responses d').filter fun r => r.status = .executed := by
  cases h : e.fillId with
  | none =>
      have hnone : ∀ d, (e.responses d).filter
          (fun r => r.status = .executed) = [] := fun d =>
        List.filter_eq_nil_iff.mpr fun r hr => by
          simp [(responses_of_fillId_none h d r hr).1]
      rw [hnone d, hnone d']
  | some k =>
      cases e with
      | filled => rfl
      | _ => cases h

/-- The ticker of the request that made it happen. -/
def tickerId : Event → TickerId
  | .accepted a | .modified a _ | .filled a _ _ _ _ | .rested _ a _
  | .killed _ a _ => a.tickerId
  | .canceled t _ _ | .excessive t _ | .unknown t _ _ _ => t

/-- The updates of an event are about its ticker. -/
theorem updates_tickerId (e : Event) (d : Dialect) :
    ∀ u ∈ e.updates d, u.tickerId = e.tickerId := by
  cases e with
  | rested replacing =>
      cases replacing <;> simp [updates, outputs, addUpdate, tickerId]
  | killed replacing =>
      cases replacing with
      | false => simp [updates, outputs]
      | true =>
          cases hd : d.reportsKilledReplacement <;>
            simp [updates, outputs, hd, cancelUpdate, tickerId]
  | modified => simp [updates, outputs, modifyUpdate, tickerId]
  | filled => simp [updates, outputs, tradeUpdate, tickerId]
  | canceled => simp [updates, outputs, cancelUpdate, tickerId]
  | accepted | excessive | unknown => simp [updates, outputs]

end Event

end NanoExchange
