import ToyExchange.Engine.MatchingEngine
import ToyExchange.Foundations.Drain
import Mathlib.Algebra.Order.Group.Unbundled.Int

/-!
# The live orders of an engine

The abstract view of a matching engine: for each side the list of its live orders, best price
first and oldest first within a price.  `MatchingEngine.live` reads it off the book.

On this view the operations are simple.  An incoming order drains the opposite list from the
front while the prices cross (`Stock.drain`), a remainder is inserted behind the orders of its
own side that are at least as good, and a cancel filters one list.  `trades_onOrderAdd`,
`live_opposite_onOrderAdd`, `live_side_onOrderAdd`, `orderIndex_onOrderAdd`,
`live_onOrderCancel` and `orderIndex_onOrderCancel` say so; the rest of the development uses
them and does not look into the loops again.

They need that no level of the book is empty, which both operations keep
(`noEmptyLevel_onOrderAdd`, `noEmptyLevel_onOrderCancel`).  Then nothing is lost in the view: the
live orders of a side determine its levels (`levels_eq_of_live_eq`).
-/

namespace ToyExchange

/-- A live order: a resting order with the side and the price it rests at. -/
structure LiveOrder extends RestingOrder where
  side : Side
  price : ℤ
deriving DecidableEq

namespace LiveOrder

/-- An order resting at a price of side `s`. -/
def onSide (s : Side) (x : ℤ × RestingOrder) : LiveOrder := ⟨x.2, s, x.1⟩

/-- Where the order rests. -/
def location (o : LiveOrder) : OrderLocation := ⟨o.side, o.price, o.userId⟩

/-- The trade of an incoming order with this one. -/
def tradeWith (o : LiveOrder) (incoming : OrderAdd) (traded : ℤ) : Trade :=
  ToyExchange.tradeWith incoming o.price o.toRestingOrder traded

/-- The remainder of an incoming order as a live order. -/
def ofAdd (order : OrderAdd) (remaining : ℤ) : LiveOrder :=
  ⟨⟨order.orderId, order.userId, remaining⟩, order.side, order.price⟩

/-- `a.Precedes b`: the price of `a` is strictly better than that of `b` on the side of `a`. -/
def Precedes (a b : LiveOrder) : Prop := a.side.before a.price b.price

instance : DecidableRel Precedes := fun a b =>
  inferInstanceAs (Decidable (a.side.before a.price b.price))

/-- Live orders hold volume, and a fill takes a part of it. -/
def stock : Stock LiveOrder ℤ where
  amount o := o.volume
  reduce o v := { o with volume := o.volume - v }
  amount_reduce _ _ := rfl

@[simp] lemma stock_amount (o : LiveOrder) : stock.amount o = o.volume := rfl

@[simp] lemma stock_reduce (o : LiveOrder) (v : ℤ) :
    stock.reduce o v = { o with volume := o.volume - v } := rfl

end LiveOrder

/-- An order of side `s` with the given limit may trade at the price of an opposite order. -/
def Side.crosses : Side → ℤ → ℤ → Prop
  | .buy, limit, price => limit ≥ price
  | .sell, limit, price => limit ≤ price

instance (s : Side) (limit price : ℤ) : Decidable (s.crosses limit price) :=
  match s with
  | .buy => inferInstanceAs (Decidable (limit ≥ price))
  | .sell => inferInstanceAs (Decidable (limit ≤ price))

/-- A price crosses a limit unless the limit comes strictly before it on the opposite side. -/
lemma Side.crosses_iff {s : Side} {limit price : ℤ} :
    s.crosses limit price ↔ ¬ s.opposite.before limit price := by
  cases s with
  | buy => exact not_lt.symm
  | sell => exact not_lt.symm

/-- Erase the entries of several order ids. -/
def OrderIndex.eraseAll (index : OrderIndex) (ids : List ℤ) : OrderIndex :=
  ids.foldl OrderIndex.erase index

@[simp] lemma OrderIndex.eraseAll_nil (index : OrderIndex) : index.eraseAll [] = index := rfl

@[simp] lemma OrderIndex.eraseAll_cons (index : OrderIndex) (i : ℤ) (ids : List ℤ) :
    index.eraseAll (i :: ids) = (index.erase i).eraseAll ids := rfl

lemma OrderIndex.erase_apply (index : OrderIndex) (i j : ℤ) :
    index.erase i j = if j = i then none else index j := Function.update_apply ..

lemma OrderIndex.eraseAll_apply (index : OrderIndex) (ids : List ℤ) (j : ℤ) :
    index.eraseAll ids j = if j ∈ ids then none else index j := by
  induction ids generalizing index with
  | nil => simp
  | cons i ids ih =>
    rw [eraseAll_cons, ih, erase_apply]
    by_cases hi : j = i <;> by_cases hmem : j ∈ ids <;> simp [hi, hmem]

/-! ## Reading the live orders off the book -/

/-- The live orders of the levels of side `s`, best price first, oldest first. -/
def liveOf (s : Side) (levels : List (ℤ × PriceLevel)) : List LiveOrder :=
  (FlatMap.spread levels).map (LiveOrder.onSide s)

@[simp] lemma liveOf_nil (s : Side) : liveOf s [] = [] := rfl

lemma liveOf_cons (s : Side) (price : ℤ) (level : PriceLevel) (levels : List (ℤ × PriceLevel)) :
    liveOf s ((price, level) :: levels) =
      level.map (fun r => LiveOrder.onSide s (price, r)) ++ liveOf s levels := by
  simp [liveOf, Function.comp_def]

/-- An order is live exactly when it stands in the level of its side and price. -/
lemma mem_liveOf {s : Side} {levels : List (ℤ × PriceLevel)} {o : LiveOrder} :
    o ∈ liveOf s levels ↔
      o.side = s ∧ ∃ level, (o.price, level) ∈ levels ∧ o.toRestingOrder ∈ level := by
  rw [liveOf, List.mem_map]
  constructor
  · rintro ⟨⟨price, r⟩, hmem, rfl⟩
    exact ⟨rfl, FlatMap.mem_spread.mp hmem⟩
  · rintro ⟨rfl, level, hlevel, ho⟩
    exact ⟨(o.price, o.toRestingOrder), FlatMap.mem_spread.mpr ⟨level, hlevel, ho⟩, rfl⟩

/-- The live orders of a sorted side are sorted by price, orders of one price in any order. -/
lemma pairwise_liveOf {s : Side} {levels : List (ℤ × PriceLevel)}
    (h : (levels.map Prod.fst).Pairwise s.before) :
    (liveOf s levels).Pairwise fun a b => ¬ b.Precedes a :=
  List.pairwise_map.mpr (FlatMap.pairwise_spread h)

/-! ## Matching as draining -/

section Matching

variable {incoming : OrderAdd}

/-- What an incoming order with volume `remaining` does to a list of opposite live orders. -/
def fillAgainst (incoming : OrderAdd) (live : List LiveOrder) (remaining : ℤ) :
    Drained LiveOrder ℤ :=
  LiveOrder.stock.drain (fun o => incoming.side.crosses incoming.price o.price) live remaining

/-- The trades of a drain, in the order they are printed. -/
def tradesWith (incoming : OrderAdd) (taken : List (LiveOrder × ℤ)) : List Trade :=
  taken.map fun x => x.1.tradeWith incoming x.2

/-- The ids of a list of live orders. -/
def orderIds (live : List LiveOrder) : List ℤ := live.map fun o => o.orderId

lemma fillAgainst_of_not_pos {remaining : ℤ} (h : ¬ 0 < remaining) (live : List LiveOrder) :
    fillAgainst incoming live remaining = ⟨live, remaining, [], []⟩ :=
  Stock.drain_of_stop fun hpos => absurd hpos h

/-- A crossing order that fits into what remains is used up. -/
lemma fillAgainst_cons_of_le {o : LiveOrder} {live : List LiveOrder} {remaining : ℤ}
    (hpos : 0 < remaining) (hcross : incoming.side.crosses incoming.price o.price)
    (hle : o.volume ≤ remaining) :
    fillAgainst incoming (o :: live) remaining =
      ⟨(fillAgainst incoming live (remaining - o.volume)).rest,
        (fillAgainst incoming live (remaining - o.volume)).left,
        (o, o.volume) :: (fillAgainst incoming live (remaining - o.volume)).taken,
        o :: (fillAgainst incoming live (remaining - o.volume)).spent⟩ :=
  Stock.drain_cons_of_le hpos hcross hle

/-- A crossing order larger than what remains is reduced. -/
lemma fillAgainst_cons_of_lt {o : LiveOrder} {live : List LiveOrder} {remaining : ℤ}
    (hpos : 0 < remaining) (hcross : incoming.side.crosses incoming.price o.price)
    (hlt : remaining < o.volume) :
    fillAgainst incoming (o :: live) remaining =
      ⟨{ o with volume := o.volume - remaining } :: live, 0, [(o, remaining)], []⟩ :=
  Stock.drain_cons_of_lt hpos hcross hlt

/-- Draining a list that starts with a crossing level is the inner loop on the level and then
draining the rest. -/
lemma fillAgainst_level_append {price : ℤ} (hcross : incoming.side.crosses incoming.price price)
    (s : Side) (live : List LiveOrder) (level : PriceLevel) (remaining : ℤ) (index : OrderIndex) :
    (fillAgainst incoming (liveOf s [(price, level)] ++ live) remaining).rest =
        liveOf s [(price, (matchLevel incoming price level remaining index).level)] ++
          (fillAgainst incoming live
            (matchLevel incoming price level remaining index).remaining).rest ∧
      (fillAgainst incoming (liveOf s [(price, level)] ++ live) remaining).left =
        (fillAgainst incoming live
          (matchLevel incoming price level remaining index).remaining).left ∧
      tradesWith incoming
          (fillAgainst incoming (liveOf s [(price, level)] ++ live) remaining).taken =
        (matchLevel incoming price level remaining index).trades ++
          tradesWith incoming (fillAgainst incoming live
            (matchLevel incoming price level remaining index).remaining).taken ∧
      index.eraseAll (orderIds
          (fillAgainst incoming (liveOf s [(price, level)] ++ live) remaining).spent) =
        (matchLevel incoming price level remaining index).orderIndex.eraseAll
          (orderIds (fillAgainst incoming live
            (matchLevel incoming price level remaining index).remaining).spent) := by
  induction level generalizing remaining index with
  | nil => exact ⟨rfl, rfl, rfl, rfl⟩
  | cons r level ih =>
    have hview : liveOf s [(price, r :: level)] ++ live =
        LiveOrder.onSide s (price, r) :: (liveOf s [(price, level)] ++ live) := by
      simp [liveOf_cons]
    by_cases hpos : 0 < remaining
    · rcases le_or_gt r.volume remaining with hle | hlt
      · -- the front order is used up; the tail is the induction hypothesis
        obtain ⟨hrest, hleft, htaken, hspent⟩ :=
          ih (remaining - r.volume) (index.erase r.orderId)
        rw [hview, matchLevel_cons_of_le hpos hle, fillAgainst_cons_of_le hpos hcross hle]
        exact ⟨hrest, hleft, congrArg (tradeWith incoming price r r.volume :: ·) htaken, hspent⟩
      · rw [hview, matchLevel_cons_of_lt hpos hlt, fillAgainst_cons_of_lt hpos hcross hlt,
          fillAgainst_of_not_pos (lt_irrefl 0)]
        refine ⟨?_, rfl, rfl, rfl⟩
        simp [liveOf_cons, LiveOrder.onSide]
    · rw [matchLevel_of_not_pos hpos, fillAgainst_of_not_pos hpos, fillAgainst_of_not_pos hpos]
      exact ⟨rfl, rfl, rfl, rfl⟩

/-- `Match` on a book without empty levels drains the live orders of the book. -/
theorem matchEntries_eq_fillAgainst {priceCrosses : ℤ → ℤ → Bool}
    (hcrosses : ∀ p, priceCrosses incoming.price p = true ↔
      incoming.side.crosses incoming.price p)
    (s : Side) {book : List (ℤ × PriceLevel)} (hbook : ∀ x ∈ book, x.2 ≠ []) (remaining : ℤ)
    (index : OrderIndex) :
    liveOf s (matchEntries priceCrosses incoming book remaining index).entries =
        (fillAgainst incoming (liveOf s book) remaining).rest ∧
      (matchEntries priceCrosses incoming book remaining index).remaining =
        (fillAgainst incoming (liveOf s book) remaining).left ∧
      (matchEntries priceCrosses incoming book remaining index).trades =
        tradesWith incoming (fillAgainst incoming (liveOf s book) remaining).taken ∧
      (matchEntries priceCrosses incoming book remaining index).orderIndex =
        index.eraseAll (orderIds (fillAgainst incoming (liveOf s book) remaining).spent) := by
  induction book generalizing remaining index with
  | nil => exact ⟨rfl, rfl, rfl, rfl⟩
  | cons x book ih =>
    obtain ⟨price, level⟩ := x
    obtain ⟨hlevel, hbook⟩ := List.forall_mem_cons.mp hbook
    have hview :
        liveOf s ((price, level) :: book) = liveOf s [(price, level)] ++ liveOf s book := by
      simp [liveOf_cons]
    by_cases hgo : 0 < remaining ∧ priceCrosses incoming.price price = true
    · obtain ⟨hpos, hcross⟩ := hgo
      obtain ⟨hrest, hleft, htaken, hspent⟩ := fillAgainst_level_append
        ((hcrosses price).mp hcross) s (liveOf s book) level remaining index
      rw [hview, hrest, hleft, htaken, hspent]
      by_cases hnil : (matchLevel incoming price level remaining index).level = []
      · obtain ⟨ihrest, ihleft, ihtaken, ihspent⟩ := ih hbook
          (matchLevel incoming price level remaining index).remaining
          (matchLevel incoming price level remaining index).orderIndex
        rw [matchEntries_cons_of_nil hpos hcross hnil, hnil]
        exact ⟨ihrest, ihleft, congrArg (_ ++ ·) ihtaken, ihspent⟩
      · -- orders are left at this price, so the demand is met and the rest is not touched
        have hdone := matchLevel_remaining_of_ne_nil hnil
        rw [matchEntries_cons_of_ne_nil hpos hcross hnil, fillAgainst_of_not_pos hdone.not_gt]
        refine ⟨?_, rfl, (List.append_nil _).symm, rfl⟩
        simp [liveOf_cons]
    · have hstop : fillAgainst incoming (liveOf s ((price, level) :: book)) remaining =
          ⟨liveOf s ((price, level) :: book), remaining, [], []⟩ := by
        refine Stock.drain_of_stop fun hpos o ho hok => hgo ⟨hpos, (hcrosses price).mpr ?_⟩
        -- the front live order rests at the best price, since its level is not empty
        obtain ⟨r, level', rfl⟩ := List.exists_cons_of_ne_nil hlevel
        rw [liveOf_cons, List.map_cons, List.cons_append, List.head?_cons,
          Option.mem_some_iff] at ho
        subst ho
        exact hok
      have hmatch : matchEntries priceCrosses incoming ((price, level) :: book) remaining index =
          ⟨(price, level) :: book, remaining, index, []⟩ := by
        refine matchEntries_of_stop fun hpos e he => ?_
        rw [List.head?_cons, Option.mem_some_iff] at he
        subst he
        exact Bool.eq_false_iff.mpr fun hcross => hgo ⟨hpos, hcross⟩
      rw [hmatch, hstop]
      exact ⟨rfl, rfl, rfl, rfl⟩

/-- The outer loop leaves no level empty that was not. -/
lemma matchEntries_ne_nil {priceCrosses : ℤ → ℤ → Bool} {incoming : OrderAdd}
    {book : List (ℤ × PriceLevel)} (hbook : ∀ x ∈ book, x.2 ≠ []) (remaining : ℤ)
    (index : OrderIndex) :
    ∀ x ∈ (matchEntries priceCrosses incoming book remaining index).entries, x.2 ≠ [] := by
  induction book generalizing remaining index with
  | nil => exact hbook
  | cons e book ih =>
    obtain ⟨price, level⟩ := e
    obtain ⟨hlevel, hrest⟩ := List.forall_mem_cons.mp hbook
    by_cases hgo : 0 < remaining ∧ priceCrosses incoming.price price = true
    · by_cases hnil : (matchLevel incoming price level remaining index).level = []
      · rw [matchEntries_cons_of_nil hgo.1 hgo.2 hnil]
        exact ih hrest _ _
      · rw [matchEntries_cons_of_ne_nil hgo.1 hgo.2 hnil]
        exact List.forall_mem_cons.mpr ⟨hnil, hrest⟩
    · rw [matchEntries_of_stop fun hpos e he => ?_]
      · exact hbook
      · rw [List.head?_cons, Option.mem_some_iff] at he
        subst he
        exact Bool.eq_false_iff.mpr fun hcross => hgo ⟨hpos, hcross⟩

end Matching

namespace MatchingEngine

/-- The levels of one side of the book. -/
def levels (e : MatchingEngine) : Side → List (ℤ × PriceLevel)
  | .buy => e.bids.entries
  | .sell => e.asks.entries

/-- The live orders of one side, best price first and oldest first within a price. -/
def live (e : MatchingEngine) (s : Side) : List LiveOrder := liveOf s (e.levels s)

/-- All the live orders, the bids first. -/
def orders (e : MatchingEngine) : List LiveOrder := e.live .buy ++ e.live .sell

lemma sorted_levels (e : MatchingEngine) (s : Side) :
    ((e.levels s).map Prod.fst).Pairwise s.before := by
  cases s with
  | buy => exact e.bids.sorted
  | sell => exact e.asks.sorted

lemma pairwise_live (e : MatchingEngine) (s : Side) :
    (e.live s).Pairwise fun a b => ¬ b.Precedes a := pairwise_liveOf (e.sorted_levels s)

lemma side_of_mem_live {e : MatchingEngine} {s : Side} {o : LiveOrder} (h : o ∈ e.live s) :
    o.side = s := (mem_liveOf.mp h).1

lemma mem_orders {e : MatchingEngine} {o : LiveOrder} : o ∈ e.orders ↔ o ∈ e.live o.side := by
  rw [orders, List.mem_append]
  constructor
  · rintro (h | h) <;> rwa [side_of_mem_live h]
  · intro h
    cases hs : o.side with
    | buy => exact Or.inl (hs ▸ h)
    | sell => exact Or.inr (hs ▸ h)

/-- Engines with the same two books have the same live orders. -/
lemma orders_eq_of_books {e e' : MatchingEngine} (hbids : e'.bids = e.bids)
    (hasks : e'.asks = e.asks) : e'.orders = e.orders := by
  unfold orders live levels
  rw [hbids, hasks]

/-- The live orders of one side among all. -/
lemma filter_side_orders (e : MatchingEngine) (s : Side) :
    e.orders.filter (fun o => o.side = s) = e.live s := by
  have hall : ∀ t, t = s → (e.live t).filter (fun o => o.side = s) = e.live t := by
    rintro t rfl
    exact List.filter_eq_self.mpr fun o ho => decide_eq_true (side_of_mem_live ho)
  have hnone : ∀ t, t ≠ s → (e.live t).filter (fun o => o.side = s) = [] := by
    intro t hts
    refine List.filter_eq_nil_iff.mpr fun o ho hos => hts ?_
    rw [← side_of_mem_live ho]
    exact of_decide_eq_true hos
  rw [orders, List.filter_append]
  cases s with
  | buy => rw [hall .buy rfl, hnone .sell (by decide), List.append_nil]
  | sell => rw [hnone .buy (by decide), hall .sell rfl, List.nil_append]

lemma orders_perm (e : MatchingEngine) (s : Side) :
    e.orders.Perm (e.live s ++ e.live s.opposite) := by
  cases s with
  | buy => exact List.Perm.refl _
  | sell => exact List.perm_append_comm

/-- No level of the book is empty. -/
def NoEmptyLevel (e : MatchingEngine) : Prop := ∀ s, ∀ x ∈ e.levels s, x.2 ≠ []

lemma noEmptyLevel_empty : empty.NoEmptyLevel := by
  intro s x hx
  cases s <;> simp [levels, empty] at hx

/-- Without empty levels, the levels of a side are determined by its live orders. -/
theorem levels_eq_of_live_eq {e e' : MatchingEngine} (he : e.NoEmptyLevel) (he' : e'.NoEmptyLevel)
    {s : Side} (h : e.live s = e'.live s) : e.levels s = e'.levels s := by
  have hinjective : Function.Injective (LiveOrder.onSide s) := by
    intro x x' heq
    rw [LiveOrder.onSide, LiveOrder.onSide, LiveOrder.mk.injEq] at heq
    exact Prod.ext heq.2.2 heq.1
  exact FlatMap.eq_of_spread_eq (e.sorted_levels s) (e'.sorted_levels s) (he s) (he' s)
    (List.map_injective_iff.mpr hinjective h)

/-! ## The operations on levels -/

/-- The outer loop run by an incoming order on the opposite side of the book. -/
def matchOpposite (e : MatchingEngine) (order : OrderAdd) : BookMatch :=
  matchEntries (fun limit price => order.side.crosses limit price) order
    (e.levels order.side.opposite) order.volume e.orderIndex

/-- What an incoming order does to the live orders of the opposite side. -/
def fill (e : MatchingEngine) (order : OrderAdd) : Drained LiveOrder ℤ :=
  fillAgainst order (e.live order.side.opposite) order.volume

/-- The orders an add leaves in the book besides its own remainder. -/
def surviving (e : MatchingEngine) (order : OrderAdd) : List LiveOrder :=
  (e.fill order).rest ++ e.live order.side

/-- The outer loop of an add is a drain of the opposite live orders. -/
lemma matchOpposite_eq_fill {e : MatchingEngine} (he : e.NoEmptyLevel) (order : OrderAdd) :
    liveOf order.side.opposite (e.matchOpposite order).entries = (e.fill order).rest ∧
      (e.matchOpposite order).remaining = (e.fill order).left ∧
      (e.matchOpposite order).trades = tradesWith order (e.fill order).taken ∧
      (e.matchOpposite order).orderIndex =
        e.orderIndex.eraseAll (orderIds (e.fill order).spent) :=
  matchEntries_eq_fillAgainst (fun _ => decide_eq_true_iff) _ (he _) _ _

/-- The outer loop does nothing for an order without positive volume. -/
lemma matchOpposite_of_not_pos {e : MatchingEngine} {order : OrderAdd} (h : ¬ 0 < order.volume) :
    e.matchOpposite order = ⟨e.levels order.side.opposite, order.volume, e.orderIndex, []⟩ :=
  matchEntries_of_stop fun hpos => absurd hpos h

lemma levels_rest (e : MatchingEngine) (order : OrderAdd) (remaining : ℤ) (s : Side) :
    (e.rest order remaining).levels s =
      if s = order.side then
        FlatMap.upsertEntries (r := s.before) []
          (· ++ [⟨order.orderId, order.userId, remaining⟩]) order.price (e.levels s)
      else e.levels s := by
  obtain ⟨i, u, t, side, p, v⟩ := order
  cases side <;> cases s <;> rfl

lemma orderIndex_rest (e : MatchingEngine) (order : OrderAdd) (remaining : ℤ) :
    (e.rest order remaining).orderIndex =
      e.orderIndex.insert order.orderId ⟨order.side, order.price, order.userId⟩ := by
  obtain ⟨i, u, t, side, p, v⟩ := order
  cases side <;> rfl

section MidPrice

variable [PriceSum]

@[simp] lemma bids_updateMidPrice (e : MatchingEngine) : e.updateMidPrice.bids = e.bids := by
  unfold updateMidPrice
  split <;> rfl

@[simp] lemma asks_updateMidPrice (e : MatchingEngine) : e.updateMidPrice.asks = e.asks := by
  unfold updateMidPrice
  split <;> rfl

@[simp] lemma orderIndex_updateMidPrice (e : MatchingEngine) :
    e.updateMidPrice.orderIndex = e.orderIndex := by
  unfold updateMidPrice
  split <;> rfl

@[simp] lemma levels_updateMidPrice (e : MatchingEngine) (s : Side) :
    e.updateMidPrice.levels s = e.levels s := by
  cases s <;> simp [levels]

/-- An add in terms of the outer loop: what remains of the order rests, and the mid price is
published. -/
lemma onOrderAdd_eq (e : MatchingEngine) (order : OrderAdd) :
    ∃ e' : MatchingEngine, (e'.levels order.side.opposite = (e.matchOpposite order).entries ∧
        e'.levels order.side = e.levels order.side ∧
        e'.orderIndex = (e.matchOpposite order).orderIndex) ∧
      e.onOrderAdd order =
        ((if 0 < (e.matchOpposite order).remaining
          then e'.rest order (e.matchOpposite order).remaining else e').updateMidPrice,
          (e.matchOpposite order).trades) := by
  obtain ⟨i, u, t, side, p, v⟩ := order
  cases side with
  | buy =>
    let asks := e.asks.ofSublist (e.matchOpposite ⟨i, u, t, .buy, p, v⟩).entries
      (keys_matchEntries_sublist ..)
    exact ⟨⟨e.bids, asks, (e.matchOpposite ⟨i, u, t, .buy, p, v⟩).orderIndex, e.midPrice⟩,
      ⟨rfl, rfl, rfl⟩, rfl⟩
  | sell =>
    let bids := e.bids.ofSublist (e.matchOpposite ⟨i, u, t, .sell, p, v⟩).entries
      (keys_matchEntries_sublist ..)
    exact ⟨⟨bids, e.asks, (e.matchOpposite ⟨i, u, t, .sell, p, v⟩).orderIndex, e.midPrice⟩,
      ⟨rfl, rfl, rfl⟩, rfl⟩

lemma onOrderAdd_trades (e : MatchingEngine) (order : OrderAdd) :
    (e.onOrderAdd order).2 = (e.matchOpposite order).trades := by
  obtain ⟨e', -, heq⟩ := e.onOrderAdd_eq order
  rw [heq]

/-- Every trade of an add is one of the incoming order. -/
lemma exists_tradeWith_of_mem_onOrderAdd {e : MatchingEngine} {order : OrderAdd} {t : Trade}
    (h : t ∈ (e.onOrderAdd order).2) :
    ∃ price resting traded, t = tradeWith order price resting traded := by
  rw [onOrderAdd_trades] at h
  exact exists_tradeWith_of_mem_matchEntries h

lemma levels_opposite_onOrderAdd (e : MatchingEngine) (order : OrderAdd) :
    (e.onOrderAdd order).1.levels order.side.opposite = (e.matchOpposite order).entries := by
  obtain ⟨e', ⟨hopp, -, -⟩, heq⟩ := e.onOrderAdd_eq order
  rw [heq, ← hopp, levels_updateMidPrice]
  split_ifs
  · rw [levels_rest, if_neg order.side.opposite_ne]
  · rfl

lemma levels_side_onOrderAdd (e : MatchingEngine) (order : OrderAdd) :
    (e.onOrderAdd order).1.levels order.side =
      if 0 < (e.matchOpposite order).remaining then
        FlatMap.upsertEntries (r := order.side.before) []
          (· ++ [⟨order.orderId, order.userId, (e.matchOpposite order).remaining⟩]) order.price
          (e.levels order.side)
      else e.levels order.side := by
  obtain ⟨e', ⟨-, hside, -⟩, heq⟩ := e.onOrderAdd_eq order
  rw [heq, ← hside, levels_updateMidPrice]
  split_ifs
  · rw [levels_rest, if_pos rfl]
  · rfl

lemma onOrderAdd_orderIndex (e : MatchingEngine) (order : OrderAdd) :
    (e.onOrderAdd order).1.orderIndex =
      if 0 < (e.matchOpposite order).remaining then
        (e.matchOpposite order).orderIndex.insert order.orderId
          ⟨order.side, order.price, order.userId⟩
      else (e.matchOpposite order).orderIndex := by
  obtain ⟨e', ⟨-, -, hindex⟩, heq⟩ := e.onOrderAdd_eq order
  rw [heq, ← hindex, orderIndex_updateMidPrice]
  split_ifs
  · rw [orderIndex_rest]
  · rfl

/-- An add without positive volume changes no level. -/
lemma levels_onOrderAdd_of_not_pos {e : MatchingEngine} {order : OrderAdd}
    (h : ¬ 0 < order.volume) (s : Side) : (e.onOrderAdd order).1.levels s = e.levels s := by
  rcases order.side.eq_or_eq_opposite s with rfl | rfl
  · rw [levels_side_onOrderAdd, matchOpposite_of_not_pos h, if_neg h]
  · rw [levels_opposite_onOrderAdd, matchOpposite_of_not_pos h]

/-- The cancel is from the recorded owner of a known order, so it is acted upon. -/
def Accepts (e : MatchingEngine) (cancel : OrderCancel) (location : OrderLocation) : Prop :=
  e.orderIndex cancel.orderId = some location ∧ location.userId = cancel.userId

/-- A cancel that is not accepted changes nothing at all. -/
lemma onOrderCancel_of_not_accepts {e : MatchingEngine} {cancel : OrderCancel}
    (h : ∀ location, ¬ e.Accepts cancel location) : e.onOrderCancel cancel = e := by
  unfold onOrderCancel
  cases hi : e.orderIndex cancel.orderId with
  | none => rfl
  | some location => exact if_pos fun hu => h location ⟨hi, hu⟩

/-- An accepted cancel erases from the level recorded in the index, and the entry. -/
lemma onOrderCancel_of_accepts {e : MatchingEngine} {cancel : OrderCancel}
    {location : OrderLocation} (h : e.Accepts cancel location) :
    (∀ s, (e.onOrderCancel cancel).levels s =
      if s = location.side then
        FlatMap.alterEntries (FlatMap.keep fun o : RestingOrder => o.orderId ≠ cancel.orderId)
          location.price (e.levels s)
      else e.levels s) ∧
      (e.onOrderCancel cancel).orderIndex = e.orderIndex.erase cancel.orderId := by
  obtain ⟨side, price, userId⟩ := location
  obtain ⟨hi, hu⟩ := h
  have hne : ¬ (userId ≠ cancel.userId) := not_not.mpr hu
  unfold onOrderCancel
  simp only [hi, if_neg hne, levels_updateMidPrice, orderIndex_updateMidPrice]
  cases side with
  | buy => exact ⟨fun s => by cases s <;> rfl, rfl⟩
  | sell => exact ⟨fun s => by cases s <;> rfl, rfl⟩

/-! ## No level becomes empty -/

lemma noEmptyLevel_onOrderAdd {e : MatchingEngine} (he : e.NoEmptyLevel) (order : OrderAdd) :
    (e.onOrderAdd order).1.NoEmptyLevel := by
  intro s
  rcases order.side.eq_or_eq_opposite s with rfl | rfl
  · rw [levels_side_onOrderAdd]
    split_ifs
    · exact FlatMap.forall_upsertEntries (P := fun _ level => level ≠ []) (he _) (by simp)
        fun _ _ => by simp
    · exact he _
  · rw [levels_opposite_onOrderAdd]
    exact matchEntries_ne_nil (he _) _ _

lemma noEmptyLevel_onOrderCancel {e : MatchingEngine} (he : e.NoEmptyLevel)
    (cancel : OrderCancel) : (e.onOrderCancel cancel).NoEmptyLevel := by
  by_cases h : ∃ location, e.Accepts cancel location
  · obtain ⟨location, h⟩ := h
    intro s
    rw [(onOrderCancel_of_accepts h).1]
    split_ifs
    · exact FlatMap.forall_alterEntries (P := fun _ level => level ≠ []) (he s)
        fun level level' _ hkeep => (FlatMap.keep_eq_some.mp hkeep).2
    · exact he s
  · rw [onOrderCancel_of_not_accepts fun location hl => h ⟨location, hl⟩]
    exact he

/-! ## The operations on live orders -/

/-- The trades of an add are those of the drain. -/
theorem trades_onOrderAdd {e : MatchingEngine} (he : e.NoEmptyLevel) (order : OrderAdd) :
    (e.onOrderAdd order).2 = tradesWith order (e.fill order).taken := by
  rw [onOrderAdd_trades, (matchOpposite_eq_fill he order).2.2.1]

/-- The opposite side after an add is what the drain leaves. -/
theorem live_opposite_onOrderAdd {e : MatchingEngine} (he : e.NoEmptyLevel) (order : OrderAdd) :
    (e.onOrderAdd order).1.live order.side.opposite = (e.fill order).rest := by
  rw [live, levels_opposite_onOrderAdd, (matchOpposite_eq_fill he order).1]

/-- On its own side an add inserts its remainder behind the orders that are at least as good. -/
theorem live_side_onOrderAdd {e : MatchingEngine} (he : e.NoEmptyLevel) (order : OrderAdd) :
    (e.onOrderAdd order).1.live order.side =
      if 0 < (e.fill order).left then
        (e.live order.side).orderedInsert LiveOrder.Precedes
          (LiveOrder.ofAdd order (e.fill order).left)
      else e.live order.side := by
  rw [live, levels_side_onOrderAdd, (matchOpposite_eq_fill he order).2.1]
  split_ifs
  · rw [liveOf, FlatMap.spread_upsert_concat _ _ (e.sorted_levels _)]
    exact List.map_orderedInsert _ _ _ _ _ (fun _ _ => Iff.rfl) (fun _ _ => Iff.rfl)
  · rfl

/-- The live orders after an add are those that survive it and its remainder. -/
theorem orders_onOrderAdd_perm {e : MatchingEngine} (he : e.NoEmptyLevel) (order : OrderAdd) :
    (e.onOrderAdd order).1.orders.Perm
      (if 0 < (e.fill order).left
        then LiveOrder.ofAdd order (e.fill order).left :: e.surviving order
        else e.surviving order) := by
  refine ((orders_perm _ order.side).trans List.perm_append_comm).trans ?_
  rw [live_opposite_onOrderAdd he, live_side_onOrderAdd he]
  split_ifs
  · exact ((List.perm_orderedInsert _ _ _).append_left _).trans List.perm_middle
  · exact List.Perm.refl _

/-- The index after an add: the orders used up are erased, and a remainder is entered. -/
theorem orderIndex_onOrderAdd {e : MatchingEngine} (he : e.NoEmptyLevel) (order : OrderAdd) :
    (e.onOrderAdd order).1.orderIndex =
      if 0 < (e.fill order).left then
        (e.orderIndex.eraseAll (orderIds (e.fill order).spent)).insert order.orderId
          ⟨order.side, order.price, order.userId⟩
      else e.orderIndex.eraseAll (orderIds (e.fill order).spent) := by
  obtain ⟨-, hleft, -, hindex⟩ := matchOpposite_eq_fill he order
  rw [onOrderAdd_orderIndex, hleft, hindex]

/-- The cancel takes the order out: it carries the id and rests at the recorded location. -/
def Erases (cancel : OrderCancel) (location : OrderLocation) (o : LiveOrder) : Prop :=
  o.orderId = cancel.orderId ∧ o.side = location.side ∧ o.price = location.price

instance (cancel : OrderCancel) (location : OrderLocation) :
    DecidablePred (Erases cancel location) := fun o =>
  inferInstanceAs (Decidable (o.orderId = cancel.orderId ∧ o.side = location.side ∧
    o.price = location.price))

/-- An accepted cancel takes out the orders with its id at the recorded location. -/
theorem live_onOrderCancel {e : MatchingEngine} {cancel : OrderCancel} {location : OrderLocation}
    (h : e.Accepts cancel location) (s : Side) :
    (e.onOrderCancel cancel).live s =
      (e.live s).filter fun o => ¬ Erases cancel location o := by
  rw [live, (onOrderCancel_of_accepts h).1 s]
  by_cases hs : s = location.side
  · rw [if_pos hs, liveOf, FlatMap.spread_alter_filter _ _ (e.sorted_levels s), live, liveOf,
      List.filter_map]
    congr 1
    refine List.filter_congr fun x _ => ?_
    rw [Bool.eq_iff_iff]
    simp only [Function.comp_apply, LiveOrder.onSide, Erases, hs, true_and, Bool.or_eq_true,
      decide_eq_true_eq]
    tauto
  · rw [if_neg hs]
    refine (List.filter_eq_self.mpr fun o ho => ?_).symm
    rw [decide_eq_true_iff]
    exact fun hl => hs ((side_of_mem_live ho).symm.trans hl.2.1)

/-- The live orders of both sides after an accepted cancel. -/
theorem orders_onOrderCancel {e : MatchingEngine} {cancel : OrderCancel}
    {location : OrderLocation} (h : e.Accepts cancel location) :
    (e.onOrderCancel cancel).orders = e.orders.filter fun o => ¬ Erases cancel location o := by
  rw [orders, live_onOrderCancel h, live_onOrderCancel h, ← List.filter_append]
  rfl

/-- An accepted cancel erases the entry of its id. -/
theorem orderIndex_onOrderCancel {e : MatchingEngine} {cancel : OrderCancel}
    {location : OrderLocation} (h : e.Accepts cancel location) :
    (e.onOrderCancel cancel).orderIndex = e.orderIndex.erase cancel.orderId :=
  (onOrderCancel_of_accepts h).2

end MidPrice

end MatchingEngine

end ToyExchange
