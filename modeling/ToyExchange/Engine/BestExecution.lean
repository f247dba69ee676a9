import ToyExchange.Engine.OrderIndex
import ToyExchange.Foundations.CheapestDrain

/-!
# Best execution

What price priority is for: an incoming order is filled as far as its limit allows, and no other way
of filling as much from the resting orders would have been better for it.  A buyer pays the least
and a seller gets the most, whatever commands have led to the book (`best_execution`).

The live orders of the opposite side are drained from the front (`trades_onOrderAdd`), and the front
is the cheapest end for the incoming order (`pairwise_unitCost`), so this is the rule for draining
from the cheapest end.
-/

namespace ToyExchange

/-- What a unit at this price costs an incoming order: a seller pays what it does not get. -/
def Side.unitCost : Side → ℤ → ℤ
  | .buy, price => price
  | .sell, price => -price

namespace MatchingEngine

/-- The opposite side is sorted by what its orders cost the incoming one. -/
lemma pairwise_unitCost (e : MatchingEngine) (s : Side) :
    (e.live s.opposite).Pairwise fun a b => s.unitCost a.price ≤ s.unitCost b.price := by
  refine (e.pairwise_live s.opposite).imp_of_mem ?_
  intro a b _ hb hnot
  unfold LiveOrder.Precedes at hnot
  rw [side_of_mem_live hb] at hnot
  cases s with
  | buy => exact not_lt.mp hnot
  | sell => exact neg_le_neg (not_lt.mp hnot)

section Trades

variable {order : OrderAdd} (taken : List (LiveOrder × ℤ))

/-- The volumes of the trades are what is taken. -/
lemma volumes_tradesWith :
    (tradesWith order taken).map (fun t => t.volume) = taken.map Prod.snd := by
  rw [tradesWith, List.map_map]
  rfl

/-- The trades are made at the prices of the orders taken from. -/
lemma costs_tradesWith :
    (tradesWith order taken).map (fun t => order.side.unitCost t.executionPrice * t.volume) =
      taken.map fun x => order.side.unitCost x.1.price * x.2 := by
  rw [tradesWith, List.map_map]
  rfl

end Trades

variable [PriceSum]

/-- **Best execution.**  After any commands, an add trades all of its volume or all that is resting
within its limit, if that is less; and no other way to take the same total out of the opposite
orders, in parts of their volumes and whether within the limit or not, would have cost a buyer less
or given a seller more. -/
theorem best_execution (cmds : List InboundCommand) (order : OrderAdd) :
    let e := after cmds
    let trades := (e.onOrderAdd order).2
    (trades.map fun t => t.volume).sum = min (max order.volume 0) (e.crossingVolume order) ∧
    ∀ amounts, LiveOrder.stock.Parts (e.live order.side.opposite) amounts →
      amounts.sum = (trades.map fun t => t.volume).sum →
      (trades.map fun t => order.side.unitCost t.executionPrice * t.volume).sum ≤
        Stock.costOf (fun o => order.side.unitCost o.price) (e.live order.side.opposite)
          amounts := by
  intro e trades
  have he : e.Sound := sound_after cmds
  have htrades : trades = tradesWith order (e.fill order).taken :=
    trades_onOrderAdd he.noEmptyLevel order
  rw [htrades, volumes_tradesWith, costs_tradesWith]
  refine ⟨?_, fun amounts hparts hsum => ?_⟩
  · exact Stock.sum_taken_eq_min (e.pairwise_crosses order) (he.volume_pos _)
  · exact Stock.cost_taken_le (e.pairwise_unitCost order.side) hparts hsum

/-- A buyer of 6 takes the 4 at 100 and 2 of the 5 at 102. -/
example : ((@onOrderAdd PriceSum.int64 (@after PriceSum.int64
    [.add ⟨1, 1, .aapl, .sell, 102, 5⟩, .add ⟨2, 1, .aapl, .sell, 100, 4⟩])
    ⟨3, 2, .aapl, .buy, 103, 6⟩).2.map fun t => (t.executionPrice, t.volume)) =
    [(100, 4), (102, 2)] := by
  decide

end MatchingEngine

end ToyExchange
