import ToyExchange.Engine.LiveOrders

/-!
# The book is well formed and never crossed

`MatchingEngine.Sound` is the invariant of the engine on its live orders: no level is empty,
every live order has positive volume, and no live order crosses one of the other side.  Every
command keeps it, whatever its ids, volumes and prices (`sound_step`), so it holds after every
sequence of commands (`sound_after`).

The uncrossed part has two sources.  A drain leaves a remainder only when the best opposite
price no longer crosses, and the remainder is all that is added to the book.
-/

namespace ToyExchange

/-- What comes after a price that is not better than a third one comes after that one. -/
lemma Side.before_of_before_of_not {s : Side} {p q t : ℤ} (hpq : s.before p q)
    (hqt : ¬ s.before t q) : s.before p t := by
  cases s with
  | buy => exact lt_of_le_of_lt (not_lt.mp hqt) hpq
  | sell => exact lt_of_lt_of_le hpq (not_lt.mp hqt)

lemma Side.before_opposite {s : Side} {p q : ℤ} : s.opposite.before p q ↔ s.before q p := by
  cases s <;> exact Iff.rfl

namespace MatchingEngine

/-- The invariant of the engine on its live orders. -/
structure Sound (e : MatchingEngine) : Prop where
  /-- No level of the book is empty. -/
  noEmptyLevel : e.NoEmptyLevel
  /-- Every live order has positive volume. -/
  volume_pos : ∀ s, ∀ o ∈ e.live s, 0 < o.volume
  /-- The price of a live order does not cross a live order of the other side. -/
  uncrossed : ∀ s, ∀ o ∈ e.live s, ∀ o' ∈ e.live s.opposite,
    s.opposite.before o.price o'.price

lemma sound_empty : empty.Sound where
  noEmptyLevel := noEmptyLevel_empty
  volume_pos s o ho := by cases s <;> simp [live, levels, empty] at ho
  uncrossed s o ho := by cases s <;> simp [live, levels, empty] at ho

/-- Being uncrossed can be checked from either side. -/
lemma uncrossed_of_side {e : MatchingEngine} (s : Side)
    (h : ∀ o ∈ e.live s, ∀ o' ∈ e.live s.opposite, s.opposite.before o.price o'.price) :
    ∀ t, ∀ o ∈ e.live t, ∀ o' ∈ e.live t.opposite, t.opposite.before o.price o'.price := by
  intro t o ho o' ho'
  rcases s.eq_or_eq_opposite t with rfl | rfl
  · exact h o ho o' ho'
  · rw [Side.opposite_opposite] at ho' ⊢
    exact Side.before_opposite.mp (h o' ho' o ho)

/-- If the best live order of a side comes strictly after a price, all of them do. -/
lemma before_of_head {e : MatchingEngine} {s : Side} {p : ℤ}
    (h : ∀ o ∈ (e.live s).head?, s.before p o.price) :
    ∀ o ∈ e.live s, s.before p o.price := by
  intro o ho
  have hsorted := e.pairwise_live s
  cases hl : e.live s with
  | nil => simp [hl] at ho
  | cons best rest =>
    rw [hl] at h ho hsorted
    have hbest : s.before p best.price := h best rfl
    rcases List.mem_cons.mp ho with rfl | hmem
    · exact hbest
    · have hside : o.side = s := side_of_mem_live (hl ▸ ho)
      have hnot := (List.pairwise_cons.mp hsorted).1 o hmem
      rw [LiveOrder.Precedes, hside] at hnot
      exact Side.before_of_before_of_not hbest hnot

section Steps

variable [PriceSum] {e : MatchingEngine}

/-- What is live after an add is what the drain left or the remainder. -/
lemma mem_live_side_onOrderAdd (he : e.NoEmptyLevel) {order : OrderAdd} {o : LiveOrder}
    (h : o ∈ (e.onOrderAdd order).1.live order.side) :
    o ∈ e.live order.side ∨
      (0 < (e.fill order).left ∧ o = LiveOrder.ofAdd order (e.fill order).left) := by
  rw [live_side_onOrderAdd he] at h
  split_ifs at h with hpos
  · rcases (List.mem_orderedInsert _).mp h with rfl | h
    · exact Or.inr ⟨hpos, rfl⟩
    · exact Or.inl h
  · exact Or.inl h

/-- A property of the opposite live orders that does not depend on the volume is kept. -/
lemma forall_live_opposite_onOrderAdd (he : e.NoEmptyLevel) {order : OrderAdd}
    {P : LiveOrder → Prop} (hP : ∀ o v, P o → P { o with volume := v })
    (h : ∀ o ∈ e.live order.side.opposite, P o) :
    ∀ o ∈ (e.onOrderAdd order).1.live order.side.opposite, P o := by
  rw [live_opposite_onOrderAdd he]
  exact Stock.forall_rest h fun o v ho _ _ => hP o _ ho

/-- A property of the live orders that does not depend on the volume is kept if the remainder has
it. -/
lemma forall_orders_onOrderAdd (he : e.NoEmptyLevel) {order : OrderAdd} {P : LiveOrder → Prop}
    (hP : ∀ o v, P o → P { o with volume := v }) (h : ∀ o ∈ e.orders, P o)
    (hnew : P (LiveOrder.ofAdd order (e.fill order).left)) :
    ∀ o ∈ (e.onOrderAdd order).1.orders, P o := by
  have hside : ∀ s, ∀ o ∈ e.live s, P o := fun s o ho =>
    h o (mem_orders.mpr ((side_of_mem_live ho).symm ▸ ho))
  intro o ho
  rw [mem_orders] at ho
  rcases order.side.eq_or_eq_opposite o.side with hs | hs
  · rw [hs] at ho
    rcases mem_live_side_onOrderAdd he ho with ho | ⟨-, rfl⟩
    · exact hside _ o ho
    · exact hnew
  · rw [hs] at ho
    exact forall_live_opposite_onOrderAdd he hP (hside _) o ho

/-- A remainder crosses nothing on the opposite side. -/
lemma before_of_left_pos (he : e.NoEmptyLevel) {order : OrderAdd}
    (hpos : 0 < (e.fill order).left) :
    ∀ o ∈ (e.onOrderAdd order).1.live order.side.opposite,
      order.side.opposite.before order.price o.price := by
  refine before_of_head fun o ho => ?_
  rw [live_opposite_onOrderAdd he] at ho
  exact not_not.mp (mt Side.crosses_iff.mpr (Stock.not_ok_head_of_left_pos hpos o ho))

lemma sound_onOrderAdd (he : e.Sound) (order : OrderAdd) : (e.onOrderAdd order).1.Sound where
  noEmptyLevel := noEmptyLevel_onOrderAdd he.noEmptyLevel order
  volume_pos := by
    intro s o ho
    rcases order.side.eq_or_eq_opposite s with rfl | rfl
    · rcases mem_live_side_onOrderAdd he.noEmptyLevel ho with ho | ⟨hpos, rfl⟩
      · exact he.volume_pos _ o ho
      · exact hpos
    · rw [live_opposite_onOrderAdd he.noEmptyLevel] at ho
      exact Stock.forall_rest (P := fun o : LiveOrder => 0 < o.volume) (he.volume_pos _)
        (fun o v _ _ hlt => sub_pos.mpr hlt) o ho
  uncrossed := by
    refine uncrossed_of_side order.side fun o ho => ?_
    rcases mem_live_side_onOrderAdd he.noEmptyLevel ho with ho | ⟨hpos, rfl⟩
    · exact forall_live_opposite_onOrderAdd he.noEmptyLevel (fun _ _ h => h)
        (he.uncrossed order.side o ho)
    · exact before_of_left_pos he.noEmptyLevel hpos

/-- A cancel adds no live order. -/
lemma live_onOrderCancel_sublist (e : MatchingEngine) (cancel : OrderCancel) (s : Side) :
    ((e.onOrderCancel cancel).live s).Sublist (e.live s) := by
  by_cases h : ∃ location, e.Accepts cancel location
  · obtain ⟨location, h⟩ := h
    rw [live_onOrderCancel h]
    exact List.filter_sublist
  · rw [onOrderCancel_of_not_accepts fun location hl => h ⟨location, hl⟩]

lemma orders_onOrderCancel_sublist (e : MatchingEngine) (cancel : OrderCancel) :
    (e.onOrderCancel cancel).orders.Sublist e.orders :=
  (live_onOrderCancel_sublist e cancel .buy).append (live_onOrderCancel_sublist e cancel .sell)

lemma sound_onOrderCancel (he : e.Sound) (cancel : OrderCancel) :
    (e.onOrderCancel cancel).Sound where
  noEmptyLevel := noEmptyLevel_onOrderCancel he.noEmptyLevel cancel
  volume_pos s o ho := he.volume_pos s o ((live_onOrderCancel_sublist e cancel s).mem ho)
  uncrossed s o ho o' ho' := he.uncrossed s o ((live_onOrderCancel_sublist e cancel s).mem ho) o'
    ((live_onOrderCancel_sublist e cancel s.opposite).mem ho')

/-- Every command keeps the invariant. -/
theorem sound_step (he : e.Sound) (cmd : InboundCommand) : (e.step cmd).1.Sound := by
  cases cmd with
  | add order => exact sound_onOrderAdd he order
  | cancel request => exact sound_onOrderCancel he request

/-- The invariant holds after every sequence of commands. -/
theorem sound_after (cmds : List InboundCommand) : (after cmds).Sound :=
  Mealy.run_invariant (P := Sound) (fun _ cmd h => sound_step h cmd) sound_empty cmds

end Steps

/-! ## The book -/

/-- A well-formed, uncrossed book, as it stands in the two maps. -/
structure WellFormed (e : MatchingEngine) : Prop where
  /-- The bids are keyed by strictly decreasing prices. -/
  bids_decreasing : (e.bids.entries.map Prod.fst).Pairwise (· > ·)
  /-- The asks are keyed by strictly increasing prices. -/
  asks_increasing : (e.asks.entries.map Prod.fst).Pairwise (· < ·)
  /-- No price level is empty. -/
  bids_ne_nil : ∀ x ∈ e.bids.entries, x.2 ≠ []
  asks_ne_nil : ∀ x ∈ e.asks.entries, x.2 ≠ []
  /-- Every resting volume is positive. -/
  bids_pos : ∀ x ∈ e.bids.entries, ∀ r ∈ x.2, 0 < r.volume
  asks_pos : ∀ x ∈ e.asks.entries, ∀ r ∈ x.2, 0 < r.volume
  /-- The best bid is below the best ask. -/
  uncrossed : ∀ bid ∈ e.bids.entries.head?, ∀ ask ∈ e.asks.entries.head?, bid.1 < ask.1

/-- The front of a side without empty levels gives a live order at the best price. -/
lemma exists_live_of_head {e : MatchingEngine} (he : e.NoEmptyLevel) {s : Side}
    {x : ℤ × PriceLevel} (hx : x ∈ (e.levels s).head?) : ∃ o ∈ e.live s, o.price = x.1 := by
  have hmem : x ∈ e.levels s := List.mem_of_mem_head? hx
  obtain ⟨r, hr⟩ := List.exists_mem_of_ne_nil _ (he s x hmem)
  exact ⟨LiveOrder.onSide s (x.1, r), mem_liveOf.mpr ⟨rfl, x.2, hmem, hr⟩, rfl⟩

lemma Sound.wellFormed {e : MatchingEngine} (he : e.Sound) : e.WellFormed where
  bids_decreasing := e.bids.sorted
  asks_increasing := e.asks.sorted
  bids_ne_nil := he.noEmptyLevel .buy
  asks_ne_nil := he.noEmptyLevel .sell
  bids_pos x hx r hr :=
    he.volume_pos .buy (LiveOrder.onSide .buy (x.1, r)) (mem_liveOf.mpr ⟨rfl, x.2, hx, hr⟩)
  asks_pos x hx r hr :=
    he.volume_pos .sell (LiveOrder.onSide .sell (x.1, r)) (mem_liveOf.mpr ⟨rfl, x.2, hx, hr⟩)
  uncrossed bid hbid ask hask := by
    obtain ⟨o, ho, hprice⟩ := exists_live_of_head (s := .buy) he.noEmptyLevel hbid
    obtain ⟨o', ho', hprice'⟩ := exists_live_of_head (s := .sell) he.noEmptyLevel hask
    have h := he.uncrossed .buy o ho o' ho'
    rwa [hprice, hprice'] at h

/-- **The book is never crossed and stays well formed.**  After every sequence of adds and
cancels, with any ids, users, prices and volumes, the two maps are a well-formed book whose best
bid is below its best ask. -/
theorem wellFormed_after [PriceSum] (cmds : List InboundCommand) : (after cmds).WellFormed :=
  (sound_after cmds).wellFormed

end MatchingEngine

end ToyExchange
