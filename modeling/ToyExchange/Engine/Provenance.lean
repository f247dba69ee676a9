import ToyExchange.Engine.Router

/-!
# Where trades come from

Every live order descends from an add of the history: partial fills change its volume only, and a
cancel takes orders away (`descends_step`).  A trade is made with a live order, at its price, so
its maker is an add that was given to the router before (`trades_have_makers`).

An incoming order drains the opposite side from the front while its limit is crossed.  Hence no
trade is outside the limit, and the prices of one order's trades follow the order of the book.
`Trade.Between` says so of a trade and its two orders, and `exists_between_of_mem_tradesOf` of the
trades of a run.
-/

namespace ToyExchange

/-- The live order is what an add of the given ticker left in the book, but for its volume. -/
def LiveOrder.DescendsFrom (o : LiveOrder) (ticker : Ticker) (add : OrderAdd) : Prop :=
  add.orderId = o.orderId ∧ add.userId = o.userId ∧ add.ticker = ticker ∧ add.side = o.side ∧
    add.price = o.price

namespace MatchingEngineRouter

variable [PriceSum]

/-- Every live order descends from an add of the history. -/
def Descends (history : List InboundCommand) (r : MatchingEngineRouter) : Prop :=
  ∀ i, ∀ o ∈ (r.engines i).orders, ∃ add, .add add ∈ history ∧ o.DescendsFrom (tickerAt i) add

omit [PriceSum] in
lemma descends_empty : Descends [] empty := by
  intro i o ho
  cases ho

omit [PriceSum] in
/-- Descent is not lost when the history grows. -/
lemma Descends.mono {history : List InboundCommand} {r : MatchingEngineRouter}
    (h : Descends history r) (cmd : InboundCommand) : Descends (history ++ [cmd]) r := by
  intro i o ho
  obtain ⟨add, hadd, hdescends⟩ := h i o ho
  exact ⟨add, List.mem_append_left _ hadd, hdescends⟩

/-- Every command keeps the descent of the live orders; the remainder of an add descends from the
add itself. -/
lemma descends_step {history : List InboundCommand} {r : MatchingEngineRouter}
    (hr : ∀ i, (r.engines i).Sound) (h : Descends history r) (cmd : InboundCommand) :
    Descends (history ++ [cmd]) (r.step cmd).1 := by
  have hkept := h.mono cmd
  cases hplace : place cmd.ticker with
  | none =>
    rw [step_of_unlisted r cmd hplace]
    exact hkept
  | some j =>
    rw [step_of_place r cmd hplace]
    intro i
    by_cases hij : i = j
    · subst hij
      rw [engines_set_self]
      cases cmd with
      | add order =>
        have hticker : order.ticker = tickerAt i := (place_eq_some.mp hplace).symm
        refine MatchingEngine.forall_orders_onOrderAdd (hr i).noEmptyLevel (fun o v ho => ho)
          (hkept i) ?_
        exact ⟨order, List.mem_append_right _ (List.mem_singleton.mpr rfl), rfl, rfl, hticker,
          rfl, rfl⟩
      | cancel request =>
        intro o ho
        exact hkept i o ((MatchingEngine.orders_onOrderCancel_sublist _ request).mem ho)
    · rw [engines_set_of_ne r hij]
      exact hkept i

/-- The live orders of every run descend from its adds. -/
theorem descends_after (cmds : List InboundCommand) : Descends cmds (after cmds) := by
  induction cmds using List.reverseRecOn with
  | nil => exact descends_empty
  | append_singleton cmds cmd ih =>
    rw [after_concat]
    exact descends_step (sound_engines cmds) ih cmd

end MatchingEngineRouter

namespace MatchingEngine

variable [PriceSum] {e : MatchingEngine}

/-- A trade of an add is one with a live order of the opposite side that its limit crosses. -/
lemma exists_maker_of_mem_onOrderAdd (he : e.NoEmptyLevel) {order : OrderAdd} {t : Trade}
    (h : t ∈ (e.onOrderAdd order).2) :
    ∃ o ∈ e.live order.side.opposite, order.side.crosses order.price o.price ∧
      ∃ traded, t = o.tradeWith order traded := by
  rw [trades_onOrderAdd he] at h
  obtain ⟨x, hx, rfl⟩ := List.mem_map.mp h
  obtain ⟨hmem, hcrosses⟩ := Stock.taken_mem hx
  exact ⟨x.1, hmem, hcrosses, x.2, rfl⟩

/-- The trades of an add come in the order of the opposite side: none at a better price than an
earlier one. -/
lemma pairwise_executionPrice (he : e.NoEmptyLevel) (order : OrderAdd) :
    (e.onOrderAdd order).2.Pairwise fun t t' =>
      ¬ order.side.opposite.before t'.executionPrice t.executionPrice := by
  rw [trades_onOrderAdd he, tradesWith, List.pairwise_map]
  have hprefix : (e.fill order).taken.map Prod.fst <+: e.live order.side.opposite :=
    Stock.taken_prefix _ _
  have hsorted := (e.pairwise_live order.side.opposite).sublist hprefix.sublist
  rw [List.pairwise_map] at hsorted
  refine hsorted.imp_of_mem fun {x y} _ hy hnot => ?_
  rw [LiveOrder.Precedes, side_of_mem_live (Stock.taken_mem hy).1] at hnot
  exact hnot

end MatchingEngine

namespace MatchingEngineRouter

variable [PriceSum]

/-- Whatever an add does is done by the engine of its ticker. -/
lemma trades_onOrderAdd_of_place (r : MatchingEngineRouter) {order : OrderAdd}
    {i : Fin instruments.length} (h : place order.ticker = some i) :
    (r.onOrderAdd order).2 = ((r.engines i).onOrderAdd order).2 := by
  rw [onOrderAdd, h]

/-- An add for an unlisted ticker causes no trade. -/
lemma trades_onOrderAdd_of_unlisted (r : MatchingEngineRouter) {order : OrderAdd}
    (h : place order.ticker = none) : (r.onOrderAdd order).2 = [] := by
  rw [onOrderAdd, h]

/-- **No phantom and no off-limit trade.**  Take any commands, with any ids, users, prices and
volumes, and an add `taker` after them.  Each trade it causes names the taker's user, id, ticker
and side; its maker is an earlier add of the same ticker and the opposite side, with the maker id
and user of the trade, whose price is the execution price; and that price is within the taker's
limit.  The prices of the trades of one taker never fall if it buys and never rise if it sells. -/
theorem trades_have_makers (cmds : List InboundCommand) (taker : OrderAdd) :
    (∀ t ∈ ((after cmds).onOrderAdd taker).2,
      (t.takerId = taker.userId ∧ t.takerOrderId = taker.orderId ∧ t.ticker = taker.ticker ∧
        t.takerSide = taker.side) ∧
      (∃ maker : OrderAdd, .add maker ∈ cmds ∧ maker.orderId = t.makerOrderId ∧
        maker.userId = t.makerId ∧ maker.ticker = taker.ticker ∧
        maker.side = taker.side.opposite ∧ maker.price = t.executionPrice) ∧
      (taker.side = .buy → t.executionPrice ≤ taker.price) ∧
      (taker.side = .sell → taker.price ≤ t.executionPrice)) ∧
    (taker.side = .buy → (((after cmds).onOrderAdd taker).2.map Trade.executionPrice).Pairwise
      (· ≤ ·)) ∧
    (taker.side = .sell → (((after cmds).onOrderAdd taker).2.map Trade.executionPrice).Pairwise
      (· ≥ ·)) := by
  cases hplace : place taker.ticker with
  | none =>
    rw [trades_onOrderAdd_of_unlisted _ hplace]
    exact ⟨nofun, fun _ => List.Pairwise.nil, fun _ => List.Pairwise.nil⟩
  | some i =>
    rw [trades_onOrderAdd_of_place _ hplace]
    have he := (sound_engines cmds i).noEmptyLevel
    have hsorted := MatchingEngine.pairwise_executionPrice he taker
    refine ⟨fun t ht => ?_, fun hside => ?_, fun hside => ?_⟩
    · obtain ⟨o, ho, hcrosses, traded, rfl⟩ := MatchingEngine.exists_maker_of_mem_onOrderAdd he ht
      have hoside := MatchingEngine.side_of_mem_live ho
      have hmem : o ∈ ((after cmds).engines i).orders :=
        MatchingEngine.mem_orders.mpr (hoside.symm ▸ ho)
      obtain ⟨maker, hmaker, hid, huser, hticker, hside, hprice⟩ := descends_after cmds i o hmem
      refine ⟨⟨rfl, rfl, rfl, rfl⟩, ⟨maker, hmaker, hid, huser, ?_, hside.trans hoside, hprice⟩,
        fun hbuy => ?_, fun hsell => ?_⟩
      · exact hticker.trans (place_eq_some.mp hplace)
      · rw [hbuy] at hcrosses
        exact hcrosses
      · rw [hsell] at hcrosses
        exact hcrosses
    · rw [hside] at hsorted
      exact List.pairwise_map.mpr (hsorted.imp fun h => not_lt.mp h)
    · rw [hside] at hsorted
      exact List.pairwise_map.mpr (hsorted.imp fun h => not_lt.mp h)

end MatchingEngineRouter

/-! ## The orders of a trade -/

/-- The trade is one between these two orders, at the price of the maker and within the limit of
the taker. -/
structure Trade.Between (t : Trade) (maker taker : OrderAdd) : Prop where
  makerId : maker.userId = t.makerId
  takerId : taker.userId = t.takerId
  makerOrderId : maker.orderId = t.makerOrderId
  takerOrderId : taker.orderId = t.takerOrderId
  makerTicker : maker.ticker = t.ticker
  takerTicker : taker.ticker = t.ticker
  makerSide : maker.side = t.takerSide.opposite
  takerSide : taker.side = t.takerSide
  price : maker.price = t.executionPrice
  limit : taker.side.crosses taker.price t.executionPrice

namespace MatchingEngineRouter

variable [PriceSum]

/-- The trades of a command are between the command and an add before it. -/
lemma exists_between_of_mem_step {cmds : List InboundCommand} {cmd : InboundCommand} {t : Trade}
    (h : t ∈ ((after cmds).step cmd).2) :
    ∃ maker taker, .add maker ∈ cmds ∧ cmd = .add taker ∧ t.Between maker taker := by
  rcases cmd with taker | request
  · rcases hplace : place taker.ticker with _ | i
    · rw [step, trades_onOrderAdd_of_unlisted _ hplace] at h
      exact absurd h List.not_mem_nil
    · rw [step, trades_onOrderAdd_of_place _ hplace] at h
      have he := (sound_engines cmds i).noEmptyLevel
      obtain ⟨o, ho, hcrosses, traded, rfl⟩ := MatchingEngine.exists_maker_of_mem_onOrderAdd he h
      have hoside := MatchingEngine.side_of_mem_live ho
      have hmem : o ∈ ((after cmds).engines i).orders :=
        MatchingEngine.mem_orders.mpr (hoside.symm ▸ ho)
      obtain ⟨maker, hmaker, hid, huser, hticker, hside, hprice⟩ := descends_after cmds i o hmem
      exact ⟨maker, taker, hmaker, rfl, huser, rfl, hid, rfl,
        hticker.trans (place_eq_some.mp hplace), rfl, hside.trans hoside, rfl, hprice, hcrosses⟩
  · exact absurd h List.not_mem_nil

/-- The trades of a run are between adds of the run. -/
theorem exists_between_of_mem_tradesOf {cmds : List InboundCommand} {t : Trade}
    (h : t ∈ tradesOf cmds) :
    ∃ maker taker, .add maker ∈ cmds ∧ .add taker ∈ cmds ∧ t.Between maker taker := by
  induction cmds using List.reverseRecOn with
  | nil => exact absurd h List.not_mem_nil
  | append_singleton cmds cmd ih =>
    rw [tradesOf_concat] at h
    rcases List.mem_append.mp h with hbefore | hlast
    · obtain ⟨maker, taker, hmaker, htaker, hbetween⟩ := ih hbefore
      exact ⟨maker, taker, List.mem_append_left _ hmaker, List.mem_append_left _ htaker, hbetween⟩
    · obtain ⟨maker, taker, hmaker, rfl, hbetween⟩ := exists_between_of_mem_step hlast
      exact ⟨maker, taker, List.mem_append_left _ hmaker,
        List.mem_append_right _ (List.mem_singleton_self _), hbetween⟩

end MatchingEngineRouter

end ToyExchange
