import ToyExchange.Engine.Provenance
import ToyExchange.Tools.OrderBookListener

/-!
# The feed rebuilds the books of well-behaved clients

The listener first rests the whole incoming order and then shrinks maker and taker trade by
trade, while the engine matches first and rests only the remainder.  The two agree again at the
end of each command.

The relation between them is that the listener's dictionary is the lookup of the live orders of
the router (`Represents`, in the field `mirrors` of `Feeds`).  `represents_trades` follows it
through the trades of one add, along the drain of the opposite side.

Clients are well behaved (`WellBehaved`) if their adds are for listed tickers, with positive
volume and new ids, and if a cancel of an earlier order carries its user and ticker.
-/

namespace ToyExchange

/-- The orders added in a history. -/
def addsOf (history : List InboundCommand) : List OrderAdd :=
  history.filterMap fun cmd =>
    match cmd with
    | .add order => some order
    | .cancel _ => none

/-- The next command of a client that behaves as the bundled generator does. -/
def WellBehaved (history : List InboundCommand) : InboundCommand → Prop
  | .add order => order.ticker ∈ instruments ∧ 0 < order.volume ∧
      ∀ a ∈ addsOf history, a.orderId ≠ order.orderId
  | .cancel request => ∀ a ∈ addsOf history, a.orderId = request.orderId →
      a.userId = request.userId ∧ a.ticker = request.ticker

instance (history : List InboundCommand) : DecidablePred (WellBehaved history)
  | .add order => inferInstanceAs (Decidable (order.ticker ∈ instruments ∧ 0 < order.volume ∧
      ∀ a ∈ addsOf history, a.orderId ≠ order.orderId))
  | .cancel request => inferInstanceAs (Decidable (∀ a ∈ addsOf history,
      a.orderId = request.orderId → a.userId = request.userId ∧ a.ticker = request.ticker))

/-- Remember the commands seen. -/
def remember (history : List InboundCommand) (cmd : InboundCommand) :
    List InboundCommand × List Unit := (history ++ [cmd], [])

lemma run_remember (history cmds : List InboundCommand) :
    (Mealy.run remember history cmds).1 = history ++ cmds := by
  induction cmds generalizing history with
  | nil => exact (List.append_nil history).symm
  | cons cmd cmds ih =>
    rw [Mealy.run_cons_fst, ih]
    exact List.append_cons history cmd cmds |>.symm

/-! ## The live orders as the listener would remember them -/

namespace LiveOrder

/-- A live order of the instrument at a place, as the listener would remember it. -/
def openOrder (i : Fin instruments.length) (o : LiveOrder) : ℤ × OpenOrder :=
  (o.orderId, ⟨tickerAt i, o.side, o.price, o.volume⟩)

end LiveOrder

namespace MatchingEngineRouter

/-- The live orders of all engines, as the listener would remember them. -/
def openOrders (r : MatchingEngineRouter) : List (ℤ × OpenOrder) :=
  r.orders.map fun x => x.2.openOrder x.1

/-- Those of all engines but one. -/
def otherOpenOrders (r : MatchingEngineRouter) (i : Fin instruments.length) :
    List (ℤ × OpenOrder) := (r.otherOrders i).map fun x => x.2.openOrder x.1

lemma openOrders_perm (r : MatchingEngineRouter) (i : Fin instruments.length) :
    r.openOrders.Perm
      ((r.engines i).orders.map (LiveOrder.openOrder i) ++ r.otherOpenOrders i) := by
  have hperm := (r.orders_perm i).map fun x => x.2.openOrder x.1
  rw [List.map_append, List.map_map] at hperm
  exact hperm

/-- The live orders are those of the two sides of one engine and those of the others. -/
lemma openOrders_perm_sides (r : MatchingEngineRouter) (i : Fin instruments.length) (s : Side) :
    r.openOrders.Perm (((r.engines i).live s.opposite).map (LiveOrder.openOrder i) ++
      (((r.engines i).live s).map (LiveOrder.openOrder i) ++ r.otherOpenOrders i)) := by
  refine (r.openOrders_perm i).trans ?_
  rw [← List.append_assoc, ← List.map_append]
  exact ((((r.engines i).orders_perm s).trans List.perm_append_comm).map _).append_right _

lemma otherOpenOrders_set (r : MatchingEngineRouter) (i : Fin instruments.length)
    (e : MatchingEngine) : (r.set i e).otherOpenOrders i = r.otherOpenOrders i := by
  unfold otherOpenOrders
  rw [otherOrders_set]

end MatchingEngineRouter

namespace OrderBook

/-- What is left of an order: nothing once its volume is used up. -/
def remainder (orderId : ℤ) (order : OpenOrder) (volume : ℤ) : List (ℤ × OpenOrder) :=
  if 0 < volume then [(orderId, { order with volume := volume })] else []

lemma remainder_of_pos {orderId volume : ℤ} {order : OpenOrder} (h : 0 < volume) :
    remainder orderId order volume = [(orderId, { order with volume := volume })] := if_pos h

lemma remainder_of_not_pos {orderId volume : ℤ} {order : OpenOrder} (h : ¬ 0 < volume) :
    remainder orderId order volume = [] := if_neg h

/-- Shrinking a known order leaves its remainder. -/
lemma represents_shrink {b : OrderBook} {orderId : ℤ} {order : OpenOrder}
    {l : List (ℤ × OpenOrder)} (h : Represents b.openOrders.get ((orderId, order) :: l)) (v : ℤ) :
    Represents (b.shrink orderId v).openOrders.get
      (remainder orderId order (order.volume - v) ++ l) := by
  have hget : b.openOrders.get orderId = some order :=
    (h.lookup orderId order).mpr (List.mem_cons_self ..)
  unfold shrink
  rw [hget]
  dsimp only
  by_cases hv : order.volume - v ≤ 0
  · rw [if_pos hv, remainder_of_not_pos hv.not_gt, Dict.get_pop]
    exact h.erase_cons
  · rw [if_neg hv, remainder_of_pos (not_le.mp hv), Dict.get_set]
    exact h.update_cons _

/-- A trade leaves the remainders of its two orders. -/
lemma represents_trade {b : OrderBook} (trade : Trade) {maker taker : OpenOrder}
    {l : List (ℤ × OpenOrder)}
    (h : Represents b.openOrders.get
      ((trade.takerOrderId, taker) :: (trade.makerOrderId, maker) :: l)) :
    Represents (b.apply (.trade trade)).openOrders.get
      (remainder trade.takerOrderId taker (taker.volume - trade.volume) ++
        (remainder trade.makerOrderId maker (maker.volume - trade.volume) ++ l)) := by
  have hmaker := represents_shrink (h.perm (List.Perm.swap ..)) trade.volume
  exact represents_shrink (hmaker.perm List.perm_middle) trade.volume

section Trades

variable {order : OrderAdd} {i : Fin instruments.length}

/-- The trades of an add take the listener from the whole order and the opposite side to what is
left of both. -/
theorem represents_trades {others : List (ℤ × OpenOrder)} (live : List LiveOrder) (remaining : ℤ)
    {b : OrderBook}
    (h : Represents b.openOrders.get
      (remainder order.orderId (OpenOrder.ofAdd order) remaining ++
        (live.map (LiveOrder.openOrder i) ++ others))) :
    Represents (b.applyAll ((tradesWith order
        (fillAgainst order live remaining).taken).map .trade)).openOrders.get
      (remainder order.orderId (OpenOrder.ofAdd order) (fillAgainst order live remaining).left ++
        ((fillAgainst order live remaining).rest.map (LiveOrder.openOrder i) ++ others)) := by
  induction live, remaining using Stock.drain_induction LiveOrder.stock
    (fun o => order.side.crosses order.price o.price) generalizing b with
  | stop live remaining hstop =>
    have hfill : fillAgainst order live remaining = ⟨live, remaining, [], []⟩ :=
      Stock.drain_of_stop hstop
    rw [hfill]
    exact h
  | use o live remaining hpos hcross hle ih =>
    -- the maker's order is used up and disappears; the taker's shrinks
    rw [remainder_of_pos hpos] at h
    have htrade : Represents (b.apply (.trade (o.tradeWith order o.volume))).openOrders.get
        (remainder order.orderId (OpenOrder.ofAdd order) (remaining - o.volume) ++
          (remainder o.orderId (o.openOrder i).2 (o.volume - o.volume) ++
            (live.map (LiveOrder.openOrder i) ++ others))) :=
      represents_trade (o.tradeWith order o.volume) h
    have hgone : ¬ 0 < o.volume - o.volume := by omega
    rw [remainder_of_not_pos hgone, List.nil_append] at htrade
    rw [fillAgainst_cons_of_le hpos hcross hle]
    exact ih htrade
  | part o live remaining hpos hcross hlt =>
    -- the taker's order is used up and disappears; the maker's shrinks
    rw [remainder_of_pos hpos] at h
    have htrade : Represents (b.apply (.trade (o.tradeWith order remaining))).openOrders.get
        (remainder order.orderId (OpenOrder.ofAdd order) (remaining - remaining) ++
          (remainder o.orderId (o.openOrder i).2 (o.volume - remaining) ++
            (live.map (LiveOrder.openOrder i) ++ others))) :=
      represents_trade (o.tradeWith order remaining) h
    have hleft : 0 < o.volume - remaining := sub_pos.mpr hlt
    rw [remainder_of_pos hleft, sub_self] at htrade
    rw [fillAgainst_cons_of_lt hpos hcross hlt]
    exact htrade

end Trades

end OrderBook

/-! ## The invariant -/

/-- The router and a listener after a history of commands. -/
structure Feeds (history : List InboundCommand) (r : MatchingEngineRouter) (b : OrderBook) :
    Prop where
  sound : ∀ i, (r.engines i).Sound
  linked : ∀ i, (r.engines i).Linked
  /-- Every live order was added by its user under its ticker. -/
  origin : ∀ i, ∀ o ∈ (r.engines i).orders, ∃ a ∈ addsOf history,
    a.orderId = o.orderId ∧ a.userId = o.userId ∧ a.ticker = tickerAt i
  /-- The listener's open orders are the live orders. -/
  mirrors : Represents b.openOrders.get r.openOrders

lemma mem_addsOf {history : List InboundCommand} {order : OrderAdd} :
    order ∈ addsOf history ↔ .add order ∈ history := by
  unfold addsOf
  rw [List.mem_filterMap]
  constructor
  · rintro ⟨cmd, hcmd, hsome⟩
    cases cmd with
    | add _ => exact Option.some.inj hsome ▸ hcmd
    | cancel _ => cases hsome
  · intro h
    exact ⟨.add order, h, rfl⟩

/-- No live order has the id of a well-behaved add. -/
lemma Feeds.orderId_ne {history : List InboundCommand} {r : MatchingEngineRouter} {b : OrderBook}
    (h : Feeds history r b) {order : OrderAdd}
    (hw : WellBehaved history (.add order)) {i : Fin instruments.length} {o : LiveOrder}
    (ho : o ∈ (r.engines i).orders) : o.orderId ≠ order.orderId := by
  obtain ⟨a, ha, hid, -, -⟩ := h.origin i o ho
  rw [← hid]
  exact hw.2.2 a ha

lemma feeds_empty : Feeds [] MatchingEngineRouter.empty OrderBook.empty where
  sound _ := MatchingEngine.sound_empty
  linked _ := Represents.nil
  origin i o ho := by simp [MatchingEngineRouter.empty, MatchingEngine.orders,
    MatchingEngine.live, MatchingEngine.levels, MatchingEngine.empty] at ho
  mirrors := Represents.nil

section Steps

variable [PriceSum] {history : List InboundCommand} {r : MatchingEngineRouter} {b : OrderBook}

/-- In a linked engine, a cancel by the owner takes out the order with its id, if there is one. -/
lemma MatchingEngine.Linked.orders_onOrderCancel {e : MatchingEngine} (h : e.Linked)
    {request : OrderCancel}
    (hown : ∀ o ∈ e.orders, o.orderId = request.orderId → o.userId = request.userId) :
    (e.onOrderCancel request).orders = e.orders.filter fun o => o.orderId ≠ request.orderId := by
  by_cases haccepts : ∃ location, e.Accepts request location
  · obtain ⟨location, haccepts⟩ := haccepts
    rw [MatchingEngine.orders_onOrderCancel haccepts]
    refine List.filter_congr fun o ho => decide_eq_decide.mpr (not_congr ?_)
    refine ⟨fun herases => herases.1, fun hid => ?_⟩
    have hlookup := h.lookup_of_mem ho
    rw [hid, haccepts.1] at hlookup
    have hlocation := Option.some.inj hlookup
    exact ⟨hid, by rw [hlocation]; rfl, by rw [hlocation]; rfl⟩
  · rw [MatchingEngine.onOrderCancel_of_not_accepts fun location hl => haccepts ⟨location, hl⟩]
    symm
    refine List.filter_eq_self.mpr fun o ho => ?_
    rw [decide_eq_true_iff]
    intro hid
    have hlookup := h.lookup_of_mem ho
    rw [hid] at hlookup
    exact haccepts ⟨o.location, hlookup, hown o ho hid⟩

/-- The listener after the events of a well-behaved add. -/
lemma represents_publish_add (h : Feeds history r b) {order : OrderAdd}
    (hw : WellBehaved history (.add order)) {i : Fin instruments.length}
    (hi : place order.ticker = some i) :
    Represents (b.applyAll (r.publish (.add order))).openOrders.get
      ((r.step (.add order)).1.openOrders) := by
  have hempty := (h.sound i).noEmptyLevel
  have hticker : tickerAt i = order.ticker := place_eq_some.mp hi
  -- the add event rests the whole order
  have hfresh : order.orderId ∉ r.openOrders.map Prod.fst := by
    intro hmem
    obtain ⟨x, hx, hid⟩ := List.mem_map.mp hmem
    obtain ⟨⟨j, o⟩, ho, rfl⟩ := List.mem_map.mp hx
    exact h.orderId_ne hw (MatchingEngineRouter.mem_orders.mp ho) hid
  have hwhole : Represents (b.apply (.orderAdd order)).openOrders.get
      ((order.orderId, OpenOrder.ofAdd order) :: r.openOrders) := by
    unfold OrderBook.apply
    rw [Dict.get_set]
    exact h.mirrors.insert hfresh
  have hbefore : ((order.orderId, OpenOrder.ofAdd order) :: r.openOrders).Perm
      (OrderBook.remainder order.orderId (OpenOrder.ofAdd order) order.volume ++
        (((r.engines i).live order.side.opposite).map (LiveOrder.openOrder i) ++
          (((r.engines i).live order.side).map (LiveOrder.openOrder i) ++
            r.otherOpenOrders i))) := by
    rw [OrderBook.remainder_of_pos hw.2.1]
    exact (r.openOrders_perm_sides i order.side).cons _
  -- the trade events follow the drain
  have htrades := OrderBook.represents_trades _ _ (hwhole.perm hbefore)
  rw [r.publish_add_of_place hi, MatchingEngine.trades_onOrderAdd hempty]
  refine htrades.perm ?_
  -- what is left is what the engine keeps
  have hown :
      ((((r.engines i).onOrderAdd order).1.live order.side).map (LiveOrder.openOrder i)).Perm
      (OrderBook.remainder order.orderId (OpenOrder.ofAdd order) ((r.engines i).fill order).left ++
        ((r.engines i).live order.side).map (LiveOrder.openOrder i)) := by
    rw [MatchingEngine.live_side_onOrderAdd hempty]
    unfold OrderBook.remainder
    split_ifs with hpos
    · have hinsert := (List.perm_orderedInsert LiveOrder.Precedes
        (LiveOrder.ofAdd order ((r.engines i).fill order).left)
        ((r.engines i).live order.side)).map (LiveOrder.openOrder i)
      rw [List.map_cons, LiveOrder.openOrder, hticker] at hinsert
      exact hinsert
    · exact List.Perm.refl _
  rw [r.step_of_place (.add order) hi]
  refine List.Perm.trans ?_ (MatchingEngineRouter.openOrders_perm_sides _ i order.side).symm
  rw [MatchingEngineRouter.engines_set_self, MatchingEngineRouter.otherOpenOrders_set]
  have hstep : ((r.engines i).step (.add order)).1 = ((r.engines i).onOrderAdd order).1 := rfl
  rw [hstep, MatchingEngine.live_opposite_onOrderAdd hempty]
  refine (List.perm_append_comm_assoc _ _ _).trans (List.Perm.append_left _ ?_)
  rw [← List.append_assoc]
  exact hown.symm.append_right _

/-- A well-behaved add keeps the index of every engine. -/
lemma linked_add (h : Feeds history r b) {order : OrderAdd}
    (hw : WellBehaved history (.add order)) (j : Fin instruments.length) :
    ((r.step (.add order)).1.engines j).Linked := by
  obtain ⟨i, hi⟩ := exists_place_iff.mpr hw.1
  rw [r.step_of_place (.add order) hi]
  by_cases hji : j = i
  · subst hji
    rw [MatchingEngineRouter.engines_set_self]
    refine (MatchingEngine.linked_step_iff (h.sound j) (h.linked j) (.add order)).mpr ?_
    rintro ⟨-, o, ho, hid, -⟩
    exact h.orderId_ne hw ho hid
  · rw [MatchingEngineRouter.engines_set_of_ne r hji]
    exact h.linked j

/-- A well-behaved cancel takes out the order with its id wherever it rests. -/
lemma openOrders_onOrderCancel_perm (h : Feeds history r b) {request : OrderCancel}
    (hw : WellBehaved history (.cancel request)) :
    (r.openOrders.filter fun x => x.1 ≠ request.orderId).Perm
      (r.onOrderCancel request).openOrders := by
  have howner : ∀ j, ∀ o ∈ (r.engines j).orders, o.orderId = request.orderId →
      o.userId = request.userId ∧ tickerAt j = request.ticker := by
    intro j o ho hid
    obtain ⟨a, ha, haid, hauser, haticker⟩ := h.origin j o ho
    obtain ⟨huser, hticker⟩ := hw a ha (haid.trans hid)
    exact ⟨hauser.symm.trans huser, haticker.symm.trans hticker⟩
  unfold MatchingEngineRouter.onOrderCancel
  cases hplace : place request.ticker with
  | none =>
    -- no order with this id rests anywhere
    refine List.Perm.of_eq (List.filter_eq_self.mpr fun x hx => ?_)
    obtain ⟨⟨j, o⟩, ho, rfl⟩ := List.mem_map.mp hx
    rw [decide_eq_true_iff]
    intro hid
    have hticker := (howner j o (MatchingEngineRouter.mem_orders.mp ho) hid).2
    rw [place_eq_some.mpr hticker] at hplace
    simp at hplace
  | some i =>
    have hi : tickerAt i = request.ticker := place_eq_some.mp hplace
    refine ((r.openOrders_perm i).filter _).trans ?_
    refine List.Perm.trans ?_ (MatchingEngineRouter.openOrders_perm _ i).symm
    rw [MatchingEngineRouter.engines_set_self, MatchingEngineRouter.otherOpenOrders_set,
      (h.linked i).orders_onOrderCancel fun o ho hid => (howner i o ho hid).1, List.filter_append,
      List.filter_map]
    refine List.Perm.append (List.Perm.refl _) (List.Perm.of_eq ?_)
    -- the other engines hold no order with this id
    refine List.filter_eq_self.mpr fun x hx => ?_
    obtain ⟨⟨j, o⟩, ho, rfl⟩ := List.mem_map.mp hx
    rw [decide_eq_true_iff]
    intro hid
    obtain ⟨hji, ho⟩ := MatchingEngineRouter.mem_otherOrders.mp ho
    have hticker := (howner j o ho hid).2
    have hplace' := place_eq_some.mpr hticker
    rw [hplace] at hplace'
    exact hji (Option.some.inj hplace').symm

/-- A well-behaved cancel keeps the listener's open orders. -/
lemma represents_publish_cancel (h : Feeds history r b) {request : OrderCancel}
    (hw : WellBehaved history (.cancel request)) :
    Represents (b.applyAll (r.publish (.cancel request))).openOrders.get
      ((r.step (.cancel request)).1.openOrders) := by
  have herased := h.mirrors.erase request.orderId
  rw [← Dict.get_pop] at herased
  exact herased.perm (openOrders_onOrderCancel_perm h hw)

/-- A listener that has processed all the events of a sequence of commands. -/
def listen (cmds : List InboundCommand) : OrderBook := OrderBook.empty.applyAll (feedOf cmds)

/-- The events of the last command come last. -/
lemma listen_concat (cmds : List InboundCommand) (cmd : InboundCommand) :
    listen (cmds ++ [cmd]) =
      (listen cmds).applyAll ((MatchingEngineRouter.after cmds).publish cmd) := by
  unfold listen OrderBook.applyAll
  rw [feedOf_concat, List.foldl_append]

/-- In every run the live orders were added by their users under their tickers. -/
lemma origin_after (cmds : List InboundCommand) (i : Fin instruments.length) (o : LiveOrder)
    (ho : o ∈ ((MatchingEngineRouter.after cmds).engines i).orders) :
    ∃ a ∈ addsOf cmds, a.orderId = o.orderId ∧ a.userId = o.userId ∧ a.ticker = tickerAt i := by
  obtain ⟨a, ha, hid, huser, hticker, -, -⟩ := MatchingEngineRouter.descends_after cmds i o ho
  exact ⟨a, mem_addsOf.mpr ha, hid, huser, hticker⟩

/-- Router and listener stay together in every well-behaved run. -/
theorem feeds_of_wellBehaved {cmds : List InboundCommand}
    (h : Mealy.Along remember WellBehaved [] cmds) :
    Feeds cmds (MatchingEngineRouter.after cmds) (listen cmds) := by
  induction cmds using List.reverseRecOn with
  | nil => exact feeds_empty
  | append_singleton cmds cmd ih =>
    obtain ⟨hcmds, hcmd, -⟩ := Mealy.along_append.mp h
    rw [run_remember, List.nil_append] at hcmd
    have hfeeds := ih hcmds
    refine ⟨MatchingEngineRouter.sound_engines _, ?_, origin_after _, ?_⟩
    · rw [MatchingEngineRouter.after_concat]
      cases cmd with
      | add order => exact linked_add hfeeds hcmd
      | cancel request =>
        exact MatchingEngineRouter.forall_engines_step (P := fun _ e => e.Linked)
          (.cancel request) (fun _ _ he => MatchingEngine.linked_onOrderCancel he request)
          hfeeds.linked
    · rw [MatchingEngineRouter.after_concat, listen_concat]
      cases cmd with
      | add order =>
        obtain ⟨i, hi⟩ := exists_place_iff.mpr hcmd.1
        exact represents_publish_add hfeeds hcmd hi
      | cancel request => exact represents_publish_cancel hfeeds hcmd

end Steps

/-! ## The levels -/

/-- The total volume resting at a price of one side of the book, if there is a level. -/
def MatchingEngine.depth (e : MatchingEngine) (s : Side) (price : ℤ) : Option ℤ :=
  ((e.levels s).find? fun x => x.1 = price).map fun x => (x.2.map fun r => r.volume).sum

/-- The total volume resting at a price of one side of the book of a ticker. -/
def MatchingEngineRouter.depth (r : MatchingEngineRouter) (ticker : Ticker) (s : Side)
    (price : ℤ) : Option ℤ :=
  match place ticker with
  | none => none
  | some i => (r.engines i).depth s price

/-- The volumes of sorted levels, none of them empty, added up by price. -/
lemma sumAt_liveOf {s : Side} {levels : List (ℤ × PriceLevel)}
    (hsorted : (levels.map Prod.fst).Pairwise s.before) (hne : ∀ x ∈ levels, x.2 ≠ [])
    (price : ℤ) :
    Dict.sumAt ((liveOf s levels).map fun o => (o.price, o.volume)) price =
      (levels.find? fun x => x.1 = price).map fun x => (x.2.map fun r => r.volume).sum := by
  induction levels with
  | nil => rfl
  | cons x levels ih =>
    obtain ⟨q, level⟩ := x
    rw [List.map_cons, List.pairwise_cons] at hsorted
    obtain ⟨hlevel, hlevels⟩ := List.forall_mem_cons.mp hne
    have hview : (liveOf s ((q, level) :: levels)).map (fun o => (o.price, o.volume)) =
        level.map (fun r => (q, r.volume)) ++
          (liveOf s levels).map fun o => (o.price, o.volume) := by
      rw [liveOf_cons, List.map_append, List.map_map]
      rfl
    rw [hview, Dict.sumAt_eq, List.filter_append]
    by_cases hq : q = price
    · subst hq
      -- later levels have other prices
      have hrest : ((liveOf s levels).map fun o => (o.price, o.volume)).filter
          (fun x => x.1 = q) = [] := by
        rw [List.filter_eq_nil_iff]
        rintro y hy hyq
        obtain ⟨o, ho, rfl⟩ := List.mem_map.mp hy
        obtain ⟨-, level', hmem, -⟩ := mem_liveOf.mp ho
        have hbefore := hsorted.1 o.price (List.mem_map_of_mem hmem)
        have hprice : o.price = q := of_decide_eq_true hyq
        rw [hprice] at hbefore
        exact irrefl_of s.before q hbefore
      have hall : (level.map fun r => (q, r.volume)).filter (fun x => x.1 = q) =
          level.map fun r => (q, r.volume) := by
        rw [List.filter_eq_self]
        intro y hy
        obtain ⟨r, -, rfl⟩ := List.mem_map.mp hy
        exact decide_eq_true rfl
      rw [hrest, hall, List.append_nil, List.find?_cons_of_pos (by simp),
        if_neg (by simpa using hlevel), List.map_map]
      rfl
    · have hnone : (level.map fun r => (q, r.volume)).filter (fun x => x.1 = price) = [] := by
        rw [List.filter_eq_nil_iff]
        intro y hy
        obtain ⟨r, -, rfl⟩ := List.mem_map.mp hy
        simpa using hq
      rw [hnone, List.nil_append, ← Dict.sumAt_eq, ih hsorted.2 hlevels,
        List.find?_cons_of_neg (by simpa using hq)]

/-- The live orders of one side of the book of a ticker, as the listener would add them up. -/
lemma priceVolumes_openOrders (r : MatchingEngineRouter) {ticker : Ticker}
    {i : Fin instruments.length} (hi : place ticker = some i) (s : Side) :
    (OrderBook.priceVolumes (r.openOrders.map Prod.snd) ticker s).Perm
      (((r.engines i).live s).map fun o => (o.price, o.volume)) := by
  have hticker : tickerAt i = ticker := place_eq_some.mp hi
  unfold OrderBook.priceVolumes
  refine ((((r.openOrders_perm i).map Prod.snd).filter _).map _).trans (List.Perm.of_eq ?_)
  -- the other engines are those of other tickers
  have hothers : ((r.otherOpenOrders i).map Prod.snd).filter
      (fun o => o.ticker = ticker ∧ o.side = s) = [] := by
    rw [List.filter_eq_nil_iff]
    intro x hx hmatch
    obtain ⟨y, hy, rfl⟩ := List.mem_map.mp hx
    obtain ⟨⟨j, o⟩, ho, rfl⟩ := List.mem_map.mp hy
    have hj : tickerAt j = ticker := (of_decide_eq_true hmatch).1
    have hplace := place_eq_some.mpr hj
    rw [hi] at hplace
    exact (MatchingEngineRouter.mem_otherOrders.mp ho).1 (Option.some.inj hplace).symm
  have hown : ((r.engines i).orders.map fun o => (o.openOrder i).2).filter
      (fun o => o.ticker = ticker ∧ o.side = s) =
        ((r.engines i).live s).map fun o => (o.openOrder i).2 := by
    rw [← (r.engines i).filter_side_orders s, List.filter_map]
    refine congrArg _ (List.filter_congr fun o _ => decide_eq_decide.mpr ?_)
    exact and_iff_right hticker
  rw [List.map_append, List.map_map, List.filter_append, hothers, List.append_nil]
  exact (congrArg _ hown).trans (List.map_map ..)

/-- A listener whose open orders are the live orders shows the volumes of the books. -/
theorem get_levelsOf_of_perm {r : MatchingEngineRouter} {b : OrderBook}
    (hr : ∀ i, (r.engines i).NoEmptyLevel) (h : b.openOrders.entries.Perm r.openOrders)
    {ticker : Ticker} (hticker : ticker ∈ instruments) (s : Side) (price : ℤ) :
    (b.levelsOf ticker s).get price = r.depth ticker s price := by
  obtain ⟨i, hi⟩ := exists_place_iff.mpr hticker
  rw [OrderBook.get_levelsOf, Dict.values, OrderBook.sumAt_priceVolumes_perm (h.map Prod.snd),
    Dict.sumAt_perm (priceVolumes_openOrders r hi s)]
  unfold MatchingEngineRouter.depth
  rw [hi]
  exact sumAt_liveOf ((r.engines i).sorted_levels s) (hr i s) price

/-- **The feed rebuilds the books.**  In every run of well-behaved commands, after the events of
each command, the open orders of a listener that has processed all the events are exactly the live
orders of the router's engines, and the levels it shows for each listed ticker are the volumes
resting at each price of the books. -/
theorem feed_mirrors [PriceSum] (cmds : List InboundCommand)
    (h : Mealy.Along remember WellBehaved [] cmds) :
    ∀ pre, pre <+: cmds →
      (listen pre).openOrders.entries.Perm (MatchingEngineRouter.after pre).openOrders ∧
      ∀ ticker ∈ instruments, ∀ s price,
        ((listen pre).levelsOf ticker s).get price =
          (MatchingEngineRouter.after pre).depth ticker s price := by
  intro pre hpre
  have hfeeds := feeds_of_wellBehaved (h.of_prefix hpre)
  have hperm := (listen pre).openOrders.represents.perm_of_same hfeeds.mirrors
  refine ⟨hperm, fun ticker hticker s price => ?_⟩
  exact get_levelsOf_of_perm (fun i => (hfeeds.sound i).noEmptyLevel) hperm hticker s price

/-- A sell of 5 rests, a buy takes 3 of it, the filled buy is cancelled in vain: the listener shows
the 2 that rest at 101. -/
theorem feed_mirrors_partial_fill :
    let cmds : List InboundCommand := [.add ⟨1, 1, .aapl, .sell, 101, 5⟩,
      .add ⟨2, 2, .aapl, .buy, 102, 3⟩, .cancel ⟨2, 2, .aapl⟩]
    Mealy.Along remember WellBehaved [] cmds ∧
      ((@listen PriceSum.int64 cmds).levelsOf .aapl .sell).get 101 = some 2 := by
  refine ⟨by decide, ?_⟩
  rw [(@feed_mirrors PriceSum.int64 _ (by decide) _ (List.prefix_refl _)).2 .aapl (by decide)]
  decide

end ToyExchange
