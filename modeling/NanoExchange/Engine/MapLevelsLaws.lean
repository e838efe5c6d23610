import NanoExchange.Engine.MapBook
import NanoExchange.Engine.Representation

/-!
# The ordered maps are a lawful level table

The contents of the two maps are read off by lookup alone; `begin()` is the
best level because the maps are sorted by priority.  Every price is valid.
-/

namespace NanoExchange
namespace MapLevels

open Lib

/-- The maps hold exactly the levels of `E`. -/
def Holds (lv : MapLevels) (E : Contents) : Prop :=
  ∀ s k, ((lv.side s).find? k).map (fun l => (l.head, l.tail)) = E s k

theorem setSide_side (lv : MapLevels) (s : Side)
    (m : OrdMap Price PriceLevel s.precedes) :
    (lv.setSide s m).side s = m := by
  cases s <;> rfl

theorem setSide_side_of_ne (lv : MapLevels) {s s' : Side} (h : s' ≠ s)
    (m : OrdMap Price PriceLevel s.precedes) :
    (lv.setSide s m).side s' = lv.side s' := by
  cases s <;> cases s' <;> first | rfl | exact absurd rfl h

variable {lv : MapLevels} {E : Contents}

/-- A change to the map of one side. -/
theorem Holds.change
    (h : lv.Holds E) {s : Side} {k : Price}
    {v : Option (Option Ptr × Option Ptr)}
    {m : OrdMap Price PriceLevel s.precedes}
    (hm : ∀ k', (m.find? k').map (fun l => (l.head, l.tail)) =
      Function.update (E s) k v k') :
    (lv.setSide s m).Holds (E.set s k v) := by
  intro s' k'
  by_cases hs : s' = s
  · subst hs
    rw [setSide_side, hm, E.set_side]
  · rw [setSide_side_of_ne _ hs, h s' k', E.set_side_of_ne hs]

theorem Holds.insert
    (h : lv.Holds E) (s : Side) (k : Price) (level : PriceLevel) :
    (lv.setSide s ((lv.side s).insert k level)).Holds
      (E.set s k (some (level.head, level.tail))) := by
  refine h.change fun k' => ?_
  rw [OrdMap.find?_insert]
  by_cases hk : k = k'
  · simp [hk]
  · have hk' : k' ≠ k := fun e => hk e.symm
    simp [hk, hk', h s k']

theorem Holds.erase
    (h : lv.Holds E) (s : Side) (k : Price) :
    (lv.setSide s ((lv.side s).erase k)).Holds (E.set s k none) := by
  refine h.change fun k' => ?_
  rw [OrdMap.find?_erase]
  by_cases hk : k = k'
  · simp [hk]
  · have hk' : k' ≠ k := fun e => hk e.symm
    simp [hk, hk', h s k']

/-- The level of a price, as `operator[]` finds or makes it. -/
theorem Holds.level
    (h : lv.Holds E) (s : Side) (k : Price) :
    ((lv.level s k).head, (lv.level s k).tail) =
      (E s k).getD (none, none) := by
  rw [← h s k, MapLevels.level]
  cases (lv.side s).find? k <;> rfl

instance : LawfulLevels MapLevels where
  Valid _ := True
  Abs := Holds
  abs_empty s k := by
    cases s <;> rfl
  best_none {lv E s} h hbest k := by
    have hfirst : (lv.side s).first? = none := Option.map_eq_none_iff.mp hbest
    rw [← h s k, OrdMap.first?_eq_none hfirst k]
    rfl
  best_some {lv E s k} h hbest := by
    obtain ⟨⟨k', v⟩, hfirst, rfl⟩ := Option.map_eq_some_iff.mp hbest
    obtain ⟨hfind, hmin⟩ := OrdMap.first?_eq_some hfirst
    refine ⟨?_, fun k hk => hmin k ?_⟩
    · rw [← h s k', hfind]
      rfl
    · rw [← h s k, Option.isSome_map] at hk
      exact hk
  levelPrice_eq _ _ := rfl
  loopHead_eq {lv E} s {k} h _ := by
    show Except.ok _ = Except.ok _
    rw [← h s k]
    cases (lv.side s).find? k <;> rfl
  openLevel_ok {lv E s k} h _ _ := by
    refine ⟨_, rfl, ?_⟩
    rw [← h.level s k]
    exact h.insert s k (lv.level s k)
  fetch_ok {lv E s k e} h _ he := by
    have hlevel := h.level s k
    rw [he] at hlevel
    exact ⟨lv.level s k, rfl, congrArg Prod.fst hlevel,
      congrArg Prod.snd hlevel, fun head tail => h.insert s k _⟩
  valid_of_fetch _ := trivial
  fetch_closed {lv E s k} h _ hE := by
    have hlevel := h.level s k
    rw [hE] at hlevel
    exact ⟨lv.level s k, rfl, congrArg Prod.fst hlevel,
      congrArg Prod.snd hlevel⟩
  closeLevel_abs {lv E s k} h _ _ := h.erase s k

end MapLevels
end NanoExchange
