import ToyExchange.Engine.Ledger
import ToyExchange.Engine.Ownership

/-!
# Splitting an incoming order

An order may be sent in two parts, one right after the other, without any difference to the other
side of the market.  The first part leaves a drained book, and the second part goes on draining it
where the first one has stopped, also inside an order that was partially filled: that is
`Stock.drain_add`.  A remainder of the first part means that nothing crosses any more, so that the
second part rests as well.

`fill_second` says that the second part drains what the first part has left.  `split_order` puts
the parts together: the opposite levels, the volume traded with each maker at each price, and the
volume resting at the limit.
-/

namespace ToyExchange

namespace MatchingEngine

/-- The orders are at the same side and limit. -/
def SameLimit (order order' : OrderAdd) : Prop :=
  order'.side = order.side ∧ order'.price = order.price

/-- What a taker at this side trades with an order like `o`, told by the resting order. -/
def IsMaker (o : LiveOrder) (side : Side) (maker : LiveOrder) : Prop :=
  maker.orderId = o.orderId ∧ maker.userId = o.userId ∧ side.opposite = o.side ∧
    maker.price = o.price

instance (o : LiveOrder) (side : Side) : DecidablePred (IsMaker o side) := fun maker =>
  inferInstanceAs (Decidable (maker.orderId = o.orderId ∧ maker.userId = o.userId ∧
    side.opposite = o.side ∧ maker.price = o.price))

/-- The orders resting at a side and price. -/
def RestsAt (side : Side) (price : ℤ) (o : LiveOrder) : Prop := o.side = side ∧ o.price = price

instance (side : Side) (price : ℤ) : DecidablePred (RestsAt side price) := fun o =>
  inferInstanceAs (Decidable (o.side = side ∧ o.price = price))

/-- An incoming order drains by its side, its limit and its volume; its id and its user do not
matter. -/
lemma fillAgainst_of_sameLimit {order order' : OrderAdd} (h : SameLimit order order')
    (live : List LiveOrder) (remaining : ℤ) :
    fillAgainst order' live remaining = fillAgainst order live remaining := by
  unfold fillAgainst
  simp only [h.1, h.2]

section Parts

variable [PriceSum] {e : MatchingEngine} {whole first second : OrderAdd}

/-- The volume that an order trades with makers like `o`. -/
lemma tradedVolume_makes (he : e.NoEmptyLevel) (order : OrderAdd) (o : LiveOrder) :
    tradedVolume (fun t => o.Makes t) (e.onOrderAdd order).2 =
      Stock.takenFrom (fun maker => IsMaker o order.side maker) (e.fill order).taken := by
  rw [trades_onOrderAdd he]
  exact tradedVolume_eq_takenFrom fun _ _ => rfl

/-- The volume resting at the limit of an order grows by its remainder. -/
lemma restingVolume_limit (he : e.NoEmptyLevel) {order : OrderAdd} (hpos : 0 < order.volume) :
    (e.onOrderAdd order).1.restingVolume (fun o => RestsAt order.side order.price o) =
      e.restingVolume (fun o => RestsAt order.side order.price o) + (e.fill order).left := by
  have hbook := restingVolume_onOrderAdd he order
    (p := fun o => RestsAt order.side order.price o) fun _ _ => rfl
  have htaken : Stock.takenFrom (fun o => RestsAt order.side order.price o)
      (e.fill order).taken = 0 := by
    have hnone :
        (e.fill order).taken.filter (fun x => RestsAt order.side order.price x.1) = [] := by
      rw [List.filter_eq_nil_iff]
      intro x hx hrests
      have hside := side_of_mem_live (Stock.taken_mem hx).1
      rw [(of_decide_eq_true hrests).1] at hside
      exact order.side.opposite_ne hside.symm
    rw [Stock.takenFrom, hnone]
    rfl
  have hnew : RestsAt order.side order.price (LiveOrder.ofAdd order 0) := ⟨rfl, rfl⟩
  have hleft : 0 ≤ (e.fill order).left := Stock.left_nonneg hpos.le
  simp only [htaken, hnew, decide_true, and_true] at hbook
  split_ifs at hbook <;> omega

/-- The second part drains what the first one has left. -/
lemma fill_second (he : e.NoEmptyLevel) (hsame : SameLimit whole first)
    (hsame' : SameLimit whole second) :
    (e.onOrderAdd first).1.fill second =
      fillAgainst whole (fillAgainst whole (e.live whole.side.opposite) first.volume).rest
        second.volume := by
  have hlive : (e.onOrderAdd first).1.live second.side.opposite = (e.fill first).rest := by
    rw [hsame'.1, ← hsame.1]
    exact live_opposite_onOrderAdd he first
  rw [fill, hlive, fill, fillAgainst_of_sameLimit hsame', fillAgainst_of_sameLimit hsame, hsame.1]

/-- The whole order drains what the parts drain together. -/
lemma fill_whole (he : e.NoEmptyLevel) (hsame : SameLimit whole first)
    (hsame' : SameLimit whole second) (hfirst : 0 < first.volume) (hsecond : 0 < second.volume)
    (hvolume : whole.volume = first.volume + second.volume) {p : LiveOrder → Bool}
    (hp : ∀ (o : LiveOrder) v, p { o with volume := v } = p o) :
    (e.fill whole).rest = ((e.onOrderAdd first).1.fill second).rest ∧
      (e.fill whole).left = (e.fill first).left + ((e.onOrderAdd first).1.fill second).left ∧
      Stock.takenFrom p (e.fill whole).taken =
        Stock.takenFrom p (e.fill first).taken +
          Stock.takenFrom p ((e.onOrderAdd first).1.fill second).taken := by
  have hfill : e.fill first = fillAgainst whole (e.live whole.side.opposite) first.volume := by
    rw [fill, fillAgainst_of_sameLimit hsame, hsame.1]
  rw [fill_second he hsame hsame', hfill, fill, hvolume]
  refine Stock.drain_add (fun _ _ => Iff.rfl) (fun o v v' => ?_) (fun o v => hp o _) _ hfirst.le
    hsecond
  simp only [LiveOrder.stock_reduce, sub_sub]

end Parts

/-- **Splitting an incoming order changes nothing for its counterparties.**  In every state that
commands can lead to, an order and two parts of it, sent one right after the other at the same side
and limit, leave the same levels on the opposite side, trade the same volume with each maker at its
price, and leave the same volume resting at the limit. -/
theorem split_order [PriceSum] (cmds : List InboundCommand) {whole first second : OrderAdd}
    (hsame : SameLimit whole first) (hsame' : SameLimit whole second) (hfirst : 0 < first.volume)
    (hsecond : 0 < second.volume) (hvolume : whole.volume = first.volume + second.volume) :
    let one := (after cmds).onOrderAdd whole
    let part := (after cmds).onOrderAdd first
    let two := part.1.onOrderAdd second
    two.1.levels whole.side.opposite = one.1.levels whole.side.opposite ∧
      (∀ o : LiveOrder, tradedVolume (fun t => o.Makes t) (part.2 ++ two.2) =
        tradedVolume (fun t => o.Makes t) one.2) ∧
      two.1.restingVolume (fun o => RestsAt whole.side whole.price o) =
        one.1.restingVolume (fun o => RestsAt whole.side whole.price o) := by
  intro one part two
  have he : (after cmds).NoEmptyLevel := (sound_after cmds).noEmptyLevel
  have hpart : part.1.NoEmptyLevel := noEmptyLevel_onOrderAdd he first
  obtain ⟨hrest, hleft, -⟩ := fill_whole he hsame hsame' hfirst hsecond hvolume
    (p := fun _ => true) fun _ _ => rfl
  refine ⟨?_, ?_, ?_⟩
  · apply levels_eq_of_live_eq (noEmptyLevel_onOrderAdd hpart second)
      (noEmptyLevel_onOrderAdd he whole)
    have hlive : two.1.live second.side.opposite = (part.1.fill second).rest :=
      live_opposite_onOrderAdd hpart second
    rw [hsame'.1] at hlive
    rw [hlive, live_opposite_onOrderAdd he whole]
    exact hrest.symm
  · intro o
    rw [tradedVolume_append, tradedVolume_makes he, tradedVolume_makes hpart,
      tradedVolume_makes he, hsame.1, hsame'.1]
    exact (fill_whole he hsame hsame' hfirst hsecond hvolume fun _ _ => rfl).2.2.symm
  · have hwhole : 0 < whole.volume := by
      rw [hvolume]
      exact add_pos hfirst hsecond
    have hone := restingVolume_limit he hwhole
    have htwo := restingVolume_limit hpart hsecond
    have hthree := restingVolume_limit he hfirst
    rw [hsame.1, hsame.2] at hthree
    rw [hsame'.1, hsame'.2, hthree, add_assoc] at htwo
    rw [htwo, hone, hleft]

/-- A sell of eight against bids of five and six, whole and in parts of five and three. -/
theorem split_order_at_level_boundary :
    let cmds : List InboundCommand :=
      [.add ⟨1, 1, .aapl, .buy, 101, 5⟩, .add ⟨2, 2, .aapl, .buy, 100, 6⟩]
    let e := @after PriceSum.int64 cmds
    let part := @onOrderAdd PriceSum.int64 e ⟨8, 3, .aapl, .sell, 100, 5⟩
    let two := @onOrderAdd PriceSum.int64 part.1 ⟨9, 3, .aapl, .sell, 100, 3⟩
    two.1.levels .buy =
      (@onOrderAdd PriceSum.int64 e ⟨7, 3, .aapl, .sell, 100, 8⟩).1.levels .buy := by
  intro cmds e part two
  exact (@split_order PriceSum.int64 cmds ⟨7, 3, .aapl, .sell, 100, 8⟩
    ⟨8, 3, .aapl, .sell, 100, 5⟩ ⟨9, 3, .aapl, .sell, 100, 3⟩ ⟨rfl, rfl⟩ ⟨rfl, rfl⟩ (by decide)
    (by decide) (by decide)).1

end MatchingEngine

end ToyExchange
