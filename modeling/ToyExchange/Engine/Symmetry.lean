import ToyExchange.Engine.MidPrice

/-!
# Buying and selling are symmetric

The two sides of the engine are separate code: two maps with opposite comparators, two crossing
tests, and a branch on the side in every operation.  The mirror image of an order has the other
side and the negated price; the mirror image of an engine has its books exchanged and all prices
negated.  Every operation commutes with it (`step_mirror`), so the run on the mirrored commands is
the mirrored run (`mirrored_run`).

The mid price is mirrored too, because truncation toward zero rounds a number and its negation
alike.
-/

namespace ToyExchange

/-! ## Mirror images -/

/-- The order at the negated price on the other side. -/
def OrderAdd.mirror (order : OrderAdd) : OrderAdd :=
  { order with
    side := order.side.opposite
    price := -order.price }

/-- Cancels are their own mirror images. -/
def InboundCommand.mirror : InboundCommand → InboundCommand
  | .add order => .add order.mirror
  | .cancel request => .cancel request

/-- The trade at the negated price with the sides exchanged. -/
def Trade.mirror (t : Trade) : Trade :=
  { t with
    takerSide := t.takerSide.opposite
    executionPrice := -t.executionPrice }

/-- The location at the negated price on the other side. -/
def OrderLocation.mirror (location : OrderLocation) : OrderLocation :=
  { location with
    side := location.side.opposite
    price := -location.price }

/-- All entries mirrored. -/
def OrderIndex.mirror (index : OrderIndex) : OrderIndex :=
  fun i => (index i).map OrderLocation.mirror

lemma OrderIndex.mirror_erase (index : OrderIndex) (i : ℤ) :
    (index.erase i).mirror = index.mirror.erase i := by
  funext j
  unfold mirror erase
  rw [Function.update_apply, Function.update_apply]
  split_ifs <;> rfl

lemma OrderIndex.mirror_insert (index : OrderIndex) (i : ℤ) (location : OrderLocation) :
    (index.insert i location).mirror = index.mirror.insert i location.mirror := by
  funext j
  unfold mirror insert
  rw [Function.update_apply, Function.update_apply]
  split_ifs <;> rfl

/-- Negation exchanges the orders of the two sides. -/
lemma Side.before_neg {s : Side} {p q : ℤ} : s.opposite.before (-p) (-q) ↔ s.before p q := by
  cases s with
  | buy => exact neg_lt_neg_iff
  | sell => exact neg_lt_neg_iff

lemma Side.crosses_neg {s : Side} {limit price : ℤ} :
    s.opposite.crosses (-limit) (-price) ↔ s.crosses limit price := by
  rw [crosses_iff, crosses_iff, before_neg]

/-- The levels at the negated prices. -/
def mirrorLevels (levels : List (ℤ × PriceLevel)) : List (ℤ × PriceLevel) :=
  FlatMap.mapKeys (fun p => -p) levels

/-- The book at the negated prices, as a book of the other side. -/
def Book.mirror {s t : Side} (book : Book s) (h : s.opposite = t) : Book t where
  entries := mirrorLevels book.entries
  sorted := by
    subst h
    have hsorted := book.sorted
    unfold mirrorLevels FlatMap.mapKeys
    rw [List.map_map, List.pairwise_map]
    rw [List.pairwise_map] at hsorted
    exact hsorted.imp fun hpq => Side.before_neg.mpr hpq

/-- The engine with its books exchanged and all prices negated. -/
def MatchingEngine.mirror (e : MatchingEngine) : MatchingEngine where
  bids := Book.mirror e.asks rfl
  asks := Book.mirror e.bids rfl
  orderIndex := e.orderIndex.mirror
  midPrice := e.midPrice.map fun p => -p

/-- What the outer loop leaves behind, mirrored. -/
def BookMatch.mirror (m : BookMatch) : BookMatch where
  entries := mirrorLevels m.entries
  remaining := m.remaining
  orderIndex := m.orderIndex.mirror
  trades := m.trades.map Trade.mirror

/-! ## The loops -/

/-- The inner loop on the mirror image of an order at the negated price. -/
lemma matchLevel_mirror (incoming : OrderAdd) (price : ℤ) (level : PriceLevel) (remaining : ℤ)
    (index : OrderIndex) :
    matchLevel incoming.mirror (-price) level remaining index.mirror =
      ⟨(matchLevel incoming price level remaining index).level,
        (matchLevel incoming price level remaining index).remaining,
        (matchLevel incoming price level remaining index).orderIndex.mirror,
        (matchLevel incoming price level remaining index).trades.map Trade.mirror⟩ := by
  induction level generalizing remaining index with
  | nil => rfl
  | cons resting level ih =>
    by_cases hpos : 0 < remaining
    · rcases le_or_gt resting.volume remaining with hle | hlt
      · rw [matchLevel_cons_of_le hpos hle, matchLevel_cons_of_le hpos hle,
          ← OrderIndex.mirror_erase, ih]
        rfl
      · rw [matchLevel_cons_of_lt hpos hlt, matchLevel_cons_of_lt hpos hlt]
        rfl
    · rw [matchLevel_of_not_pos hpos, matchLevel_of_not_pos hpos]
      rfl

/-- The outer loop on the mirror image of an order against the mirrored levels. -/
lemma matchEntries_mirror {priceCrosses priceCrosses' : ℤ → ℤ → Bool}
    (hcrosses : ∀ p q, priceCrosses' (-p) (-q) = priceCrosses p q) (incoming : OrderAdd)
    (book : List (ℤ × PriceLevel)) (remaining : ℤ) (index : OrderIndex) :
    matchEntries priceCrosses' incoming.mirror (mirrorLevels book) remaining index.mirror =
      (matchEntries priceCrosses incoming book remaining index).mirror := by
  induction book generalizing remaining index with
  | nil => rfl
  | cons x book ih =>
    obtain ⟨price, level⟩ := x
    have hcross : priceCrosses' incoming.mirror.price (-price) =
        priceCrosses incoming.price price := hcrosses _ _
    change matchEntries priceCrosses' incoming.mirror ((-price, level) :: mirrorLevels book)
      remaining index.mirror = _
    rw [matchEntries, matchEntries, hcross]
    dsimp only
    rw [matchLevel_mirror incoming price level remaining index]
    dsimp only
    split_ifs
    · rw [ih]
      simp only [BookMatch.mirror, List.map_append]
    · rfl
    · rfl
    · rfl

namespace MatchingEngine

/-- Engines with the same levels, index and mid price are equal. -/
lemma ext_levels {e e' : MatchingEngine} (hlevels : ∀ s, e.levels s = e'.levels s)
    (hindex : e.orderIndex = e'.orderIndex) (hmid : e.midPrice = e'.midPrice) : e = e' := by
  obtain ⟨bids, asks, index, mid⟩ := e
  obtain ⟨bids', asks', index', mid'⟩ := e'
  have hbids : bids = bids' := FlatMap.ext (hlevels .buy)
  have hasks : asks = asks' := FlatMap.ext (hlevels .sell)
  subst hbids hasks
  rw [mk.injEq]
  exact ⟨rfl, rfl, hindex, hmid⟩

lemma levels_mirror (e : MatchingEngine) (s : Side) :
    e.mirror.levels s = mirrorLevels (e.levels s.opposite) := by
  cases s <;> rfl

lemma levels_mirror_opposite (e : MatchingEngine) (s : Side) :
    e.mirror.levels s.opposite = mirrorLevels (e.levels s) := by
  rw [levels_mirror, Side.opposite_opposite]

/-- The outer loop of the mirror image of an add. -/
lemma matchOpposite_mirror (e : MatchingEngine) (order : OrderAdd) :
    e.mirror.matchOpposite order.mirror = (e.matchOpposite order).mirror := by
  have hlevels : e.mirror.levels order.mirror.side.opposite =
      mirrorLevels (e.levels order.side.opposite) := e.levels_mirror_opposite order.side.opposite
  unfold matchOpposite
  rw [hlevels]
  refine matchEntries_mirror (fun p q => ?_) order _ _ _
  exact decide_eq_decide.mpr Side.crosses_neg

/-! ## The mid price -/

/-- The top of the mirrored book is the negated top: truncation toward zero is symmetric. -/
lemma top_mirror (e : MatchingEngine) :
    @top PriceSum.exact e.mirror = (@top PriceSum.exact e).map fun p => -p := by
  have hmid : ∀ bid ask : ℤ, (-ask + -bid).tdiv 2 = -((bid + ask).tdiv 2) := by
    intro bid ask
    rw [← Int.neg_tdiv, neg_add_rev]
  have hbids : e.mirror.bids.entries = mirrorLevels e.asks.entries := rfl
  have hasks : e.mirror.asks.entries = mirrorLevels e.bids.entries := rfl
  unfold top
  rw [hbids, hasks]
  cases e.bids.entries with
  | nil => cases e.asks.entries <;> rfl
  | cons bid bids =>
    cases e.asks.entries with
    | nil => rfl
    | cons ask asks => exact congrArg some (hmid bid.1 ask.1)

/-- The top depends only on the levels. -/
lemma top_congr [PriceSum] {e e' : MatchingEngine} (h : ∀ s, e.levels s = e'.levels s) :
    e.top = e'.top := by
  have hbids : e.bids.entries = e'.bids.entries := h .buy
  have hasks : e.asks.entries = e'.asks.entries := h .sell
  unfold top
  rw [hbids, hasks]

/-- What is published for the mirrored levels is the negation of what is published. -/
lemma or_midPrice_mirror {e e' : MatchingEngine} (old : MatchingEngine)
    (hlevels : ∀ s, e'.levels s = e.mirror.levels s) :
    (@top PriceSum.exact e').or old.mirror.midPrice =
      ((@top PriceSum.exact e).or old.midPrice).map fun p => -p := by
  rw [@top_congr PriceSum.exact _ _ hlevels, top_mirror]
  cases @top PriceSum.exact e <;> rfl

/-! ## The operations -/

/-- A cancel is accepted by the mirrored engine at the mirrored location. -/
lemma accepts_mirror {e : MatchingEngine} {cancel : OrderCancel} {location : OrderLocation}
    (h : e.Accepts cancel location) : e.mirror.Accepts cancel location.mirror := by
  obtain ⟨hindex, huser⟩ := h
  refine ⟨?_, huser⟩
  change (e.orderIndex cancel.orderId).map OrderLocation.mirror = _
  rw [hindex]
  rfl

/-- A cancel that is not accepted is not accepted by the mirrored engine. -/
lemma not_accepts_mirror {e : MatchingEngine} {cancel : OrderCancel}
    (h : ∀ location, ¬ e.Accepts cancel location) (location : OrderLocation) :
    ¬ e.mirror.Accepts cancel location := by
  rintro ⟨hindex, huser⟩
  obtain ⟨original, horiginal, rfl⟩ := Option.map_eq_some_iff.mp hindex
  exact h original ⟨horiginal, huser⟩

section Operations

variable [PriceSum] (e : MatchingEngine)

/-- The levels after the mirror image of an add. -/
lemma levels_onOrderAdd_mirror (order : OrderAdd) (s : Side) :
    (e.mirror.onOrderAdd order.mirror).1.levels s = (e.onOrderAdd order).1.mirror.levels s := by
  rw [levels_mirror]
  rcases order.side.eq_or_eq_opposite s with rfl | rfl
  · -- the side of the original order: the one the mirror image is matched against
    have hopp := levels_opposite_onOrderAdd e.mirror order.mirror
    have hside : order.mirror.side.opposite = order.side := order.side.opposite_opposite
    rw [hside, matchOpposite_mirror] at hopp
    rw [hopp, levels_opposite_onOrderAdd]
    rfl
  · have hown := levels_side_onOrderAdd e.mirror order.mirror
    have hside : order.mirror.side = order.side.opposite := rfl
    rw [hside, matchOpposite_mirror, levels_mirror_opposite] at hown
    rw [hown, Side.opposite_opposite, levels_side_onOrderAdd]
    change (if 0 < (e.matchOpposite order).remaining then _ else _) = _
    split_ifs
    · exact FlatMap.upsertEntries_mapKeys (g := fun p => -p) (fun _ _ => Side.before_neg) _ _ _ _
    · rfl

/-- The index after the mirror image of an add. -/
lemma orderIndex_onOrderAdd_mirror (order : OrderAdd) :
    (e.mirror.onOrderAdd order.mirror).1.orderIndex = (e.onOrderAdd order).1.orderIndex.mirror := by
  rw [onOrderAdd_orderIndex, onOrderAdd_orderIndex, matchOpposite_mirror]
  change (if 0 < (e.matchOpposite order).remaining then _ else _) = _
  split_ifs
  · rw [OrderIndex.mirror_insert]
    rfl
  · rfl

/-- The levels after an accepted cancel of the mirrored engine. -/
lemma levels_onOrderCancel_mirror {cancel : OrderCancel} {location : OrderLocation}
    (h : e.Accepts cancel location) (s : Side) :
    (e.mirror.onOrderCancel cancel).levels s = (e.onOrderCancel cancel).mirror.levels s := by
  have hside : s = location.mirror.side ↔ s.opposite = location.side := by
    cases s <;> cases hs : location.side <;> simp [OrderLocation.mirror, Side.opposite, hs]
  rw [(onOrderCancel_of_accepts (accepts_mirror h)).1 s, levels_mirror, levels_mirror,
    (onOrderCancel_of_accepts h).1 s.opposite]
  simp only [hside]
  split_ifs
  · exact FlatMap.alterEntries_mapKeys neg_injective _ _ _
  · rfl

end Operations

/-- An add commutes with mirroring. -/
lemma onOrderAdd_mirror (e : MatchingEngine) (order : OrderAdd) :
    @onOrderAdd PriceSum.exact e.mirror order.mirror =
      ((@onOrderAdd PriceSum.exact e order).1.mirror,
        (@onOrderAdd PriceSum.exact e order).2.map Trade.mirror) := by
  let _ : PriceSum := PriceSum.exact
  have hlevels := e.levels_onOrderAdd_mirror order
  refine Prod.ext (ext_levels hlevels (e.orderIndex_onOrderAdd_mirror order) ?_) ?_
  · rw [midPrice_onOrderAdd, or_midPrice_mirror e hlevels, ← midPrice_onOrderAdd]
    rfl
  · rw [onOrderAdd_trades, onOrderAdd_trades, matchOpposite_mirror]
    rfl

/-- A cancel commutes with mirroring. -/
lemma onOrderCancel_mirror (e : MatchingEngine) (cancel : OrderCancel) :
    @onOrderCancel PriceSum.exact e.mirror cancel =
      (@onOrderCancel PriceSum.exact e cancel).mirror := by
  let _ : PriceSum := PriceSum.exact
  by_cases h : ∃ location, e.Accepts cancel location
  · obtain ⟨location, h⟩ := h
    have h' := accepts_mirror h
    have hlevels := e.levels_onOrderCancel_mirror h
    refine ext_levels hlevels ?_ ?_
    · rw [orderIndex_onOrderCancel h']
      change _ = (e.onOrderCancel cancel).orderIndex.mirror
      rw [orderIndex_onOrderCancel h, OrderIndex.mirror_erase]
      rfl
    · rw [midPrice_onOrderCancel h', or_midPrice_mirror e hlevels, ← midPrice_onOrderCancel h]
      rfl
  · have hnone : ∀ location, ¬ e.Accepts cancel location := fun location hl => h ⟨location, hl⟩
    rw [onOrderCancel_of_not_accepts hnone,
      onOrderCancel_of_not_accepts (not_accepts_mirror hnone)]

/-- Every command commutes with mirroring. -/
theorem step_mirror (e : MatchingEngine) (cmd : InboundCommand) :
    @step PriceSum.exact e.mirror cmd.mirror =
      ((@step PriceSum.exact e cmd).1.mirror, (@step PriceSum.exact e cmd).2.map Trade.mirror) := by
  cases cmd with
  | add order => exact e.onOrderAdd_mirror order
  | cancel request => exact Prod.ext (e.onOrderCancel_mirror request) rfl

/-- The run on the mirrored commands is the mirrored run. -/
theorem run_mirror (cmds : List InboundCommand) :
    @after PriceSum.exact (cmds.map InboundCommand.mirror) = (@after PriceSum.exact cmds).mirror ∧
      @tradesOf PriceSum.exact (cmds.map InboundCommand.mirror) =
        (@tradesOf PriceSum.exact cmds).map Trade.mirror := by
  have hempty : empty.mirror = empty := rfl
  have hrun := Mealy.run_map step_mirror empty cmds
  rw [hempty] at hrun
  exact ⟨congrArg Prod.fst hrun, congrArg Prod.snd hrun⟩

/-- **Buying and selling are symmetric.**  Over exact integers, let every add of a sequence of
commands have its side flipped and its price negated.  Then the asks are the bids of the original
run at the negated prices, and vice versa, with the same queues; the index entries are mirrored;
the trades are the same with the taker's side flipped and the price negated; and the mid price is
the negated one. -/
theorem mirrored_run (cmds : List InboundCommand) :
    let e := @after PriceSum.exact cmds
    let e' := @after PriceSum.exact (cmds.map InboundCommand.mirror)
    e'.asks.entries = e.bids.entries.map (fun x => (-x.1, x.2)) ∧
      e'.bids.entries = e.asks.entries.map (fun x => (-x.1, x.2)) ∧
      (∀ i, e'.orderIndex i = (e.orderIndex i).map OrderLocation.mirror) ∧
      @tradesOf PriceSum.exact (cmds.map InboundCommand.mirror) =
        (@tradesOf PriceSum.exact cmds).map Trade.mirror ∧
      e'.midPrice = e.midPrice.map fun p => -p := by
  obtain ⟨hstate, htrades⟩ := run_mirror cmds
  intro e e'
  have he' : e' = e.mirror := hstate
  rw [he']
  exact ⟨rfl, rfl, fun i => rfl, htrades, rfl⟩

end MatchingEngine

end ToyExchange
