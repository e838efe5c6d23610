import NanoExchange.Types
import Mathlib.Data.Nat.Basic
import Mathlib.Logic.Function.Basic

/-!
# The token registry of the gateway

`token_manager.h`: every ENTER_ORDER and REPLACE_ORDER is given the next
internal order id, and the slot of that id keeps its token, ticker and client.

The keys of `token_to_id_` are string views into the slots.  The model keeps
the slot that a view refers to, and reads the bytes of the key there; when a
token is registered again, the old view stays and only the id is assigned.
-/

namespace NanoExchange

/-- `OrderTokenManager::info` -/
structure TokenInfo where
  token : OrderToken := OrderToken.zero
  tickerId : TickerId := 0
  clientId : ClientId := 0
deriving DecidableEq

structure OrderTokenManager where
  idToToken : List TokenInfo
  /-- For each client the entries of its map: the slot that the key refers to,
  and the id. -/
  tokenToId : ClientId → List (Nat × OrderId)
  nextInternalId : OrderId := 1

namespace OrderTokenManager

/-- The constructor. -/
def init (size : Nat) : OrderTokenManager where
  idToToken := List.replicate (size + 1) {}
  tokenToId _ := []

/-- The slot of an id. -/
def slot (m : OrderTokenManager) (id : Nat) : TokenInfo :=
  m.idToToken[id]?.getD {}

/-- `insert_or_assign(token_view, id)`, where the view refers to the slot of
the new id. -/
def insertOrAssign (m : OrderTokenManager) (token : OrderToken)
    (id : OrderId) : List (Nat × OrderId) → List (Nat × OrderId)
  | [] => [(id, id)]
  | (view, old) :: entries =>
      if (m.slot view).token = token then (view, id) :: entries
      else (view, old) :: m.insertOrAssign token id entries

def registerNewToken (m : OrderTokenManager) (clientId : ClientId)
    (ouchToken : OrderToken) (tickerId : TickerId) :
    OrderId × OrderTokenManager :=
  if m.idToToken.length ≤ m.nextInternalId then (0, m)
  else
    let id := m.nextInternalId
    let m := { m with
      idToToken := m.idToToken.set id ⟨ouchToken, tickerId, clientId⟩ }
    (id, { m with
      tokenToId := Function.update m.tokenToId clientId
        (m.insertOrAssign ouchToken id (m.tokenToId clientId))
      nextInternalId := id + 1 })

def getID (m : OrderTokenManager) (clientId : ClientId)
    (ouchToken : OrderToken) : OrderId :=
  match (m.tokenToId clientId).find?
      fun e => (m.slot e.1).token = ouchToken with
  | some e => e.2
  | none => 0

/-- The ids that have been given out name slots with property `G`, and only
such ids are stored. -/
structure Slots (G : TickerId → Prop) (m : OrderTokenManager) : Prop where
  positive : 0 < m.nextInternalId
  stored : ∀ c, ∀ e ∈ m.tokenToId c, 0 < e.2 ∧ e.2 < m.nextInternalId
  good : ∀ id, 0 < id → id < m.nextInternalId → G (m.slot id).tickerId

namespace Slots

variable {G : TickerId → Prop} {m : OrderTokenManager}

theorem init (G : TickerId → Prop) (size : Nat) :
    Slots G (OrderTokenManager.init size) where
  positive := Nat.one_pos
  stored c e he := by simp [OrderTokenManager.init] at he
  good id hpos hlt := by
    have hlt : id < 1 := hlt
    lia

/-- A token that resolves names a slot with the property. -/
theorem getID
    (h : Slots G m) {c : ClientId} {t : OrderToken} (hid : m.getID c t ≠ 0) :
    G (m.slot (m.getID c t)).tickerId := by
  unfold OrderTokenManager.getID at hid ⊢
  cases hfind : (m.tokenToId c).find?
      fun e => (m.slot e.1).token = t with
  | none =>
      rw [hfind] at hid
      exact absurd rfl hid
  | some e =>
      obtain ⟨hpos, hlt⟩ := h.stored c e (List.mem_of_find?_eq_some hfind)
      exact h.good e.2 hpos hlt

theorem mem_insertOrAssign
    {t : OrderToken} {id : OrderId} {l : List (Nat × OrderId)}
    {e : Nat × OrderId} (he : e ∈ m.insertOrAssign t id l) :
    e.2 = id ∨ e ∈ l := by
  induction l with
  | nil =>
      rw [insertOrAssign, List.mem_singleton] at he
      exact .inl (by rw [he])
  | cons x l ih =>
      unfold insertOrAssign at he
      split_ifs at he with hview
      · rcases List.mem_cons.mp he with rfl | he
        · exact .inl rfl
        · exact .inr (List.mem_cons_of_mem _ he)
      · rcases List.mem_cons.mp he with rfl | he
        · exact .inr List.mem_cons_self
        · rcases ih he with heq | he
          · exact .inl heq
          · exact .inr (List.mem_cons_of_mem _ he)

/-- A registration keeps the property, if the new ticker has it; and it only
changes anything when it returns an id. -/
theorem registerNewToken
    (h : Slots G m) (c : ClientId) (t : OrderToken) (ticker : TickerId)
    (hG : (m.registerNewToken c t ticker).1 ≠ 0 → G ticker) :
    Slots G (m.registerNewToken c t ticker).2 := by
  unfold OrderTokenManager.registerNewToken at hG ⊢
  split_ifs at hG ⊢ with hfull
  · exact h
  · have hticker : G ticker := hG (Nat.ne_of_gt h.positive)
    refine ⟨Nat.succ_pos _, ?_, ?_⟩
    · intro c' e he
      by_cases hc : c' = c
      · subst hc
        simp only [Function.update_self] at he
        rcases mem_insertOrAssign he with heq | he
        · rw [heq]
          exact ⟨h.positive, Nat.lt_succ_self _⟩
        · obtain ⟨hpos, hlt⟩ := h.stored c' e he
          exact ⟨hpos, hlt.trans (Nat.lt_succ_self _)⟩
      · simp only [Function.update_of_ne hc] at he
        obtain ⟨hpos, hlt⟩ := h.stored c' e he
        exact ⟨hpos, hlt.trans (Nat.lt_succ_self _)⟩
    · intro id hpos hlt
      by_cases hid : id = m.nextInternalId
      · subst hid
        simpa [slot, List.getElem?_set_self (not_le.mp hfull)] using hticker
      · have hlt' : id < m.nextInternalId :=
          lt_of_le_of_ne (Nat.lt_succ_iff.mp hlt) hid
        have hne : m.nextInternalId ≠ id := fun e => hid e.symm
        simpa [slot, List.getElem?_set_ne hne] using h.good id hpos hlt'

end Slots

end OrderTokenManager

end NanoExchange
