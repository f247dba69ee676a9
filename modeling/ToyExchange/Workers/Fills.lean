import ToyExchange.Engine.TradeVolumes
import ToyExchange.Workers.InOrder

/-!
# The calls of `ApplyFill`

The inventory thread calls `ApplyFill` twice for each trade, for the maker and then for the taker.
`Trade.fills` lists the two calls, and `settle_eq_fills` says that settling a trade is making them
one after the other and then marking to market.

No trade of a run is empty, so no call divides by zero, whatever holding it finds
(`settlement_divides_safely`).
-/

namespace ToyExchange

/-- A call of `ApplyFill`: the user it is made on and its arguments. -/
structure Fill where
  user : Fin marketParticipantCount
  ticker : Ticker
  side : Side
  execPrice : ℤ
  tradeVolume : ℤ
deriving DecidableEq

/-- The change of position that the call works with. -/
def Fill.signedDelta (f : Fill) : ℤ := f.side.signedDelta f.tradeVolume

/-- The calls made for a trade, none if a lookup throws. -/
def Trade.fills (t : Trade) : List Fill :=
  match UserRegistry.get t.makerId, UserRegistry.get t.takerId with
  | some maker, some taker =>
    [⟨maker, t.ticker, t.takerSide.opposite, t.executionPrice, t.volume⟩,
      ⟨taker, t.ticker, t.takerSide, t.executionPrice, t.volume⟩]
  | _, _ => []

/-- The calls made for trades, up to the first one that throws. -/
def fillsOf : List Trade → List Fill
  | [] => []
  | t :: trades => if t.fills = [] then [] else t.fills ++ fillsOf trades

/-- Both calls of a trade have its volume. -/
lemma tradeVolume_of_mem_fills {t : Trade} {f : Fill} (hf : f ∈ t.fills) :
    f.tradeVolume = t.volume := by
  unfold Trade.fills at hf
  split at hf
  · rcases List.mem_cons.mp hf with rfl | hf
    · rfl
    · rw [List.mem_singleton.mp hf]
  · cases hf

/-- Every call made for trades is made for one of them. -/
lemma exists_of_mem_fillsOf {trades : List Trade} {f : Fill} (hf : f ∈ fillsOf trades) :
    ∃ t ∈ trades, f ∈ t.fills := by
  induction trades with
  | nil => cases hf
  | cons t trades ih =>
    rw [fillsOf] at hf
    split_ifs at hf
    · cases hf
    · rcases List.mem_append.mp hf with hf | hf
      · exact ⟨t, List.mem_cons_self .., hf⟩
      · obtain ⟨t', ht', hf⟩ := ih hf
        exact ⟨t', List.mem_cons_of_mem _ ht', hf⟩

/-- The calls made for the first trades come first. -/
lemma prefix_fillsOf {trades trades' : List Trade} (h : trades <+: trades') :
    fillsOf trades <+: fillsOf trades' := by
  obtain ⟨rest, rfl⟩ := h
  induction trades with
  | nil => exact List.nil_prefix
  | cons t trades ih =>
    rw [List.cons_append, fillsOf, fillsOf]
    split_ifs
    · exact List.prefix_refl _
    · exact (List.prefix_append_right_inj _).mpr ih

namespace UserRegistry

/-- A call of `ApplyFill` on the user it names. -/
def applyFill (r : UserRegistry) (f : Fill) : UserRegistry :=
  r.modify f.user fun u => u.applyFill f.ticker f.side f.execPrice f.tradeVolume

/-- A trade throws exactly if it makes no call. -/
lemma threw_settle_iff (r : UserRegistry) (t : Trade) (mid : Option ℤ) :
    (r.settle t mid).threw = true ↔ t.fills = [] := by
  unfold settle Trade.fills
  cases get t.makerId with
  | none => simp
  | some maker =>
    cases get t.takerId with
    | none => simp
    | some taker => simp

/-- Settling a trade is making its calls, and then marking to market. -/
theorem settle_eq_fills {r : UserRegistry} {t : Trade} {mid : Option ℤ}
    (h : (r.settle t mid).threw = false) :
    ∃ maker taker, get t.makerId = some maker ∧ get t.takerId = some taker ∧
      (r.settle t mid).registry =
        (t.fills.foldl applyFill r).markToMarket maker taker t.ticker mid := by
  obtain ⟨maker, taker, hmaker, htaker, hregistry⟩ := settle_of_not_throws h
  refine ⟨maker, taker, hmaker, htaker, ?_⟩
  have hfills : t.fills = [⟨maker, t.ticker, t.takerSide.opposite, t.executionPrice, t.volume⟩,
      ⟨taker, t.ticker, t.takerSide, t.executionPrice, t.volume⟩] := by
    unfold Trade.fills
    rw [hmaker, htaker]
  rw [hregistry, hfills]
  rfl

end UserRegistry

/-! ## The divisor of the average cost -/

/-- The divisor `oldAbs + addAbs` of the average-cost update. -/
def Holding.costDivisor (h : Holding) (signedDelta : ℤ) : ℚ :=
  (h.volume.natAbs : ℚ) + signedDelta.natAbs

example (h : Holding) (signedDelta : ℤ) (execUsd : ℚ) :
    h.rolledCost signedDelta execUsd =
      (h.avgCost * h.volume.natAbs + execUsd * signedDelta.natAbs) / h.costDivisor signedDelta :=
  rfl

/-- A change of position that is not zero makes the divisor positive. -/
lemma Holding.costDivisor_pos (h : Holding) {signedDelta : ℤ} (hne : signedDelta ≠ 0) :
    0 < h.costDivisor signedDelta := by
  have hdelta : (0 : ℚ) < signedDelta.natAbs := Nat.cast_pos.mpr (Int.natAbs_pos.mpr hne)
  have hold : (0 : ℚ) ≤ h.volume.natAbs := Nat.cast_nonneg _
  exact add_pos_of_nonneg_of_pos hold hdelta

/-- The change of position of a fill of positive volume has the sign of its side. -/
lemma Fill.sign_signedDelta {f : Fill} (hpos : 0 < f.tradeVolume) :
    (f.side = .buy → 0 < f.signedDelta) ∧ (f.side = .sell → f.signedDelta < 0) := by
  constructor
  · intro hbuy
    rw [signedDelta, hbuy]
    exact hpos
  · intro hsell
    rw [signedDelta, hsell]
    exact neg_neg_of_pos hpos

namespace State

variable [PriceSum]

/-- The trade in hand is one of the trades of the commands taken. -/
lemma mem_tradesOf_of_working {c : Capacities} {actions : List Action} {t : Trade}
    (h : (after c actions).inventoryThread = .working t) :
    t ∈ MatchingEngineRouter.tradesOf (after c actions).inbound.popped := by
  have horder := inOrder_after c actions
  have hpopped : t ∈ (after c actions).trades.popped := by
    rw [← horder.settling, h]
    exact List.mem_append_right _ (List.mem_singleton.mpr rfl)
  have hpushed : t ∈ (after c actions).trades.pushed :=
    (BoundedFifo.popped_prefix _).subset hpopped
  rw [← horder.trades]
  exact List.mem_append_left _ hpushed

/-- **Settlement never divides by zero.**  Every trade the router makes, whatever the commands, has
positive volume.  Hence in both calls of `ApplyFill` for it, whatever holding they find, the divisor
of the average cost is positive, and the change of position is not zero and has the sign of the
side.  The inventory thread makes these calls only for such trades, in any interleaving. -/
theorem settlement_divides_safely :
    (∀ cmds, ∀ t ∈ MatchingEngineRouter.tradesOf cmds, 0 < t.volume ∧
      ∀ f ∈ t.fills, (∀ h : Holding, 0 < h.costDivisor f.signedDelta) ∧ f.signedDelta ≠ 0 ∧
        (f.side = .buy → 0 < f.signedDelta) ∧ (f.side = .sell → f.signedDelta < 0)) ∧
      ∀ (c : Capacities) (actions : List Action) (t : Trade),
        (after c actions).inventoryThread = .working t →
          t ∈ MatchingEngineRouter.tradesOf (after c actions).inbound.popped := by
  refine ⟨fun cmds t ht => ?_, fun c actions t => mem_tradesOf_of_working⟩
  have hpos := MatchingEngineRouter.volume_pos_of_mem_tradesOf cmds t ht
  refine ⟨hpos, fun f hf => ?_⟩
  have hfill : 0 < f.tradeVolume := tradeVolume_of_mem_fills hf ▸ hpos
  have hne : f.signedDelta ≠ 0 := f.side.signedDelta_ne_zero hfill
  exact ⟨fun h => h.costDivisor_pos hne, hne, Fill.sign_signedDelta hfill⟩

end State

end ToyExchange
