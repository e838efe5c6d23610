import NanoExchange.Network.Itch
import NanoExchange.Lib.Framing

/-!
# Decoding market data

A reader of the feed knows the four packed ITCH structs by their type bytes.
`ItchTypes.layout` is the layout of these structs, with every integer
big-endian, `ItchTypes.size` the size of a struct by its type byte, and
`ItchTypes.decode` reads a struct field by field.
-/

namespace NanoExchange

open Lib

/-- The fields of the header fit into their bytes. -/
structure ItchHeader.Fits (h : ItchHeader) : Prop where
  stockLocate : h.stockLocate < 2 ^ 16
  trackingNumber : h.trackingNumber < 2 ^ 16
  timestamp : h.timestamp < 2 ^ 48

/-- The fields of a struct fit into their bytes. -/
def ItchMessage.Fits : ItchMessage → Prop
  | .addOrder h ref _ shares stock price =>
      h.Fits ∧ ref < 2 ^ 64 ∧ shares < 2 ^ 32 ∧ stock < 2 ^ 64 ∧
        price < 2 ^ 32
  | .orderDelete h ref => h.Fits ∧ ref < 2 ^ 64
  | .orderExecuted h ref shares matchNumber =>
      h.Fits ∧ ref < 2 ^ 64 ∧ shares < 2 ^ 32 ∧ matchNumber < 2 ^ 64
  | .orderReplace h old new shares price =>
      h.Fits ∧ old < 2 ^ 64 ∧ new < 2 ^ 64 ∧ shares < 2 ^ 32 ∧
        price < 2 ^ 32

/-- The type bytes of the structs. -/
structure ItchTypes where
  addOrder : UInt8
  orderDelete : UInt8
  orderExecuted : UInt8
  orderReplace : UInt8
  distinct : [addOrder, orderDelete, orderExecuted, orderReplace].Nodup

namespace ItchTypes

variable (T : ItchTypes)

/-- The packed structs. -/
def layout : ItchLayout where
  bytes
    | .addOrder h ref side shares stock price =>
        T.addOrder :: (h.packed ++ toBigEndian 8 ref ++ [side] ++
          toBigEndian 4 shares ++ toBigEndian 8 stock ++ toBigEndian 4 price)
    | .orderDelete h ref => T.orderDelete :: (h.packed ++ toBigEndian 8 ref)
    | .orderExecuted h ref shares matchNumber =>
        T.orderExecuted :: (h.packed ++ toBigEndian 8 ref ++
          toBigEndian 4 shares ++ toBigEndian 8 matchNumber)
    | .orderReplace h old new shares price =>
        T.orderReplace :: (h.packed ++ toBigEndian 8 old ++
          toBigEndian 8 new ++ toBigEndian 4 shares ++ toBigEndian 4 price)
  nonempty m := by cases m <;> simp
  fits m := by cases m <;> simp [ItchHeader.packed, itchMaxMsgSize]

/-- The size of a struct by its type byte, 0 for an unknown one. -/
def size (t : UInt8) : Nat :=
  if t = T.addOrder then 36
  else if t = T.orderDelete then 19
  else if t = T.orderExecuted then 31
  else if t = T.orderReplace then 35
  else 0

/-- The header behind the type byte. -/
def readHeader (data : List UInt8) : Option (ItchHeader × List UInt8) := do
  let (stockLocate, data) ← readWord 2 data
  let (trackingNumber, data) ← readWord 2 data
  let (timestamp, data) ← readWord 6 data
  some (⟨stockLocate, trackingNumber, timestamp⟩, data)

/-- A struct, read field by field. -/
def decode (data : List UInt8) : Option ItchMessage :=
  match data with
  | [] => none
  | t :: data =>
      if t = T.addOrder then do
        let (h, data) ← readHeader data
        let (ref, data) ← readWord 8 data
        let (side, data) ← readWord 1 data
        let (shares, data) ← readWord 4 data
        let (stock, data) ← readWord 8 data
        let (price, _) ← readWord 4 data
        some (.addOrder h ref (UInt8.ofNat side) shares stock price)
      else if t = T.orderDelete then do
        let (h, data) ← readHeader data
        let (ref, _) ← readWord 8 data
        some (.orderDelete h ref)
      else if t = T.orderExecuted then do
        let (h, data) ← readHeader data
        let (ref, data) ← readWord 8 data
        let (shares, data) ← readWord 4 data
        let (matchNumber, _) ← readWord 8 data
        some (.orderExecuted h ref shares matchNumber)
      else if t = T.orderReplace then do
        let (h, data) ← readHeader data
        let (old, data) ← readWord 8 data
        let (new, data) ← readWord 8 data
        let (shares, data) ← readWord 4 data
        let (price, _) ← readWord 4 data
        some (.orderReplace h old new shares price)
      else none

theorem type_ne :
    T.orderDelete ≠ T.addOrder ∧ T.orderExecuted ≠ T.addOrder ∧
      T.orderReplace ≠ T.addOrder ∧ T.orderExecuted ≠ T.orderDelete ∧
      T.orderReplace ≠ T.orderDelete ∧ T.orderReplace ≠ T.orderExecuted := by
  have h := T.distinct
  simp only [List.nodup_cons, List.mem_cons, List.not_mem_nil, or_false,
    not_or] at h
  obtain ⟨⟨had, hae, har⟩, ⟨hde, hdr⟩, her, -⟩ := h
  exact ⟨Ne.symm had, Ne.symm hae, Ne.symm har, Ne.symm hde, Ne.symm hdr,
    Ne.symm her⟩

theorem readHeader_packed
    {h : ItchHeader} (hfits : h.Fits) (data : List UInt8) :
    readHeader (h.packed ++ data) = some (h, data) := by
  obtain ⟨locate, tracking, time⟩ := h
  obtain ⟨hlocate, htracking, htime⟩ := hfits
  simp only [ItchHeader.packed, List.append_assoc, readHeader,
    readWord_toBigEndian 2 hlocate, readWord_toBigEndian 2 htracking,
    readWord_toBigEndian 6 htime, Option.bind_eq_bind, Option.bind_some]

variable {T}

/-- **Decoding gives back the struct.** -/
theorem decode_bytes
    {m : ItchMessage} (h : m.Fits) : T.decode (T.layout.bytes m) = some m := by
  obtain ⟨hda, hea, hra, hed, hrd, hre⟩ := T.type_ne
  cases m with
  | addOrder hdr ref side shares stock price =>
      obtain ⟨hhdr, href, hshares, hstock, hprice⟩ := h
      simp only [layout, decode, if_true, List.append_assoc,
        readHeader_packed hhdr, readWord_toBigEndian 8 href, readWord_one,
        readWord_toBigEndian 4 hshares, readWord_toBigEndian 8 hstock,
        readWord_last 4 hprice, Option.bind_eq_bind, Option.bind_some,
        List.cons_append, List.nil_append, UInt8.ofNat_toNat]
  | orderDelete hdr ref =>
      obtain ⟨hhdr, href⟩ := h
      simp only [layout, decode, hda, if_true, if_false,
        readHeader_packed hhdr, readWord_last 8 href, Option.bind_eq_bind,
        Option.bind_some]
  | orderExecuted hdr ref shares matchNumber =>
      obtain ⟨hhdr, href, hshares, hmatch⟩ := h
      simp only [layout, decode, hea, hed, if_true, if_false,
        List.append_assoc, readHeader_packed hhdr, readWord_toBigEndian 8 href,
        readWord_toBigEndian 4 hshares, readWord_last 8 hmatch,
        Option.bind_eq_bind, Option.bind_some]
  | orderReplace hdr old new shares price =>
      obtain ⟨hhdr, hold, hnew, hshares, hprice⟩ := h
      simp only [layout, decode, hra, hrd, hre, if_true, if_false,
        List.append_assoc, readHeader_packed hhdr, readWord_toBigEndian 8 hold,
        readWord_toBigEndian 8 hnew, readWord_toBigEndian 4 hshares,
        readWord_last 4 hprice, Option.bind_eq_bind, Option.bind_some]

/-- Every struct has the size that its type byte tells. -/
theorem complete_bytes (m : ItchMessage) :
    Framing.Complete T.size (T.layout.bytes m) := by
  obtain ⟨hda, hea, hra, hed, hrd, hre⟩ := T.type_ne
  cases m with
  | addOrder => exact ⟨_, _, rfl, by simp [layout, ItchHeader.packed, size]⟩
  | orderDelete =>
      exact ⟨_, _, rfl, by simp [layout, ItchHeader.packed, size, hda]⟩
  | orderExecuted =>
      exact ⟨_, _, rfl, by simp [layout, ItchHeader.packed, size, hea, hed]⟩
  | orderReplace =>
      exact ⟨_, _, rfl, by
        simp [layout, ItchHeader.packed, size, hra, hrd, hre]⟩

variable (T) in
/-- The structs in a stream of bytes; `none` if the bytes do not end with a
complete struct or are not structs. -/
def parse (data : List UInt8) : Option (List ItchMessage) :=
  if (Framing.frames T.size data).1.flatten = data then
    (Framing.frames T.size data).1.mapM T.decode
  else none

theorem mapM_decode_bytes
    {ms : List ItchMessage} (h : ∀ m ∈ ms, m.Fits) :
    (ms.mapM fun m => T.decode (T.layout.bytes m)) = some ms := by
  induction ms with
  | nil => rfl
  | cons m ms ih =>
      have ih := ih fun m' hm' => h m' (List.mem_cons_of_mem _ hm')
      simp [decode_bytes (h m List.mem_cons_self), ih]

/-- **Parsing gives back the structs.** -/
theorem parse_bytes
    {ms : List ItchMessage} (h : ∀ m ∈ ms, m.Fits) :
    T.parse (ms.flatMap T.layout.bytes) = some ms := by
  have hframes : Framing.frames T.size (ms.flatMap T.layout.bytes) =
      (ms.map T.layout.bytes, []) := by
    refine Framing.frames_flatten fun b hb => ?_
    obtain ⟨m, -, rfl⟩ := List.mem_map.mp hb
    exact complete_bytes m
  rw [parse, hframes, if_pos List.flatMap_def.symm, List.mapM_map]
  exact mapM_decode_bytes h

end ItchTypes

end NanoExchange
