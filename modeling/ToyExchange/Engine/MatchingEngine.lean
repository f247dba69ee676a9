import ToyExchange.Core.Types
import ToyExchange.Foundations.FlatMap
import ToyExchange.Foundations.Mealy
import Mathlib.Algebra.Group.Nat.Defs
import Mathlib.Algebra.Order.Group.Int
import Mathlib.Logic.Function.Basic

/-!
# The price-time-priority matching engine of one instrument

The state of a `MatchingEngine` is its two books, the index from order ids to locations and the
published mid price.  A book maps prices to levels, best price first; a level is the queue of
the orders resting at that price, oldest first.

`matchLevel` and `matchEntries` are the inner and the outer loop of `Match`.  The trade handler
is called on the spot for each fill and cannot touch the engine, so the loops return the trades
in the order of the calls.  Both loops leave through their guard once the incoming order is
exhausted: `matchLevel_cons` and `matchEntries_cons` are the loops as they stand in the source,
each iteration followed by the loop again.
-/

namespace ToyExchange

/-- An order waiting in a level. -/
structure RestingOrder where
  orderId : ℤ
  userId : ℤ
  volume : ℤ
deriving DecidableEq

/-- Where an order rests and who owns it. -/
structure OrderLocation where
  side : Side
  price : ℤ
  userId : ℤ
deriving DecidableEq

/-- The queue of the orders at one price, the oldest at the front. -/
abbrev PriceLevel := List RestingOrder

/-- `s.before p q`: on side `s` of the book the price `p` comes strictly before `q`.  The best
bid is the highest, the best ask the lowest. -/
def Side.before : Side → ℤ → ℤ → Prop
  | .buy, p, q => p > q
  | .sell, p, q => p < q

instance (s : Side) : DecidableRel s.before := fun p q =>
  match s with
  | .buy => inferInstanceAs (Decidable (p > q))
  | .sell => inferInstanceAs (Decidable (p < q))

@[simp] lemma Side.before_buy {p q : ℤ} : Side.buy.before p q ↔ q < p := Iff.rfl

@[simp] lemma Side.before_sell {p q : ℤ} : Side.sell.before p q ↔ p < q := Iff.rfl

instance (s : Side) : IsStrictTotalOrder ℤ s.before where
  irrefl p := by cases s <;> simp
  trans p q t hpq hqt := by
    cases s with
    | buy => exact lt_trans hqt hpq
    | sell => exact lt_trans hpq hqt
  trichotomous p q hpq hqp := by
    cases s with
    | buy => exact le_antisymm (not_lt.mp hpq) (not_lt.mp hqp)
    | sell => exact le_antisymm (not_lt.mp hqp) (not_lt.mp hpq)

/-- One side of the book: levels by price, the best one first. -/
abbrev Book (s : Side) := FlatMap ℤ PriceLevel s.before

/-- The best (highest) bid comes first. -/
abbrev Bids := Book .buy

/-- The best (lowest) ask comes first. -/
abbrev Asks := Book .sell

/-- The index from order ids to locations. -/
abbrev OrderIndex := ℤ → Option OrderLocation

/-- Erase the entry of an order id. -/
def OrderIndex.erase (index : OrderIndex) (orderId : ℤ) : OrderIndex :=
  Function.update index orderId none

/-- Assign the entry of an order id. -/
def OrderIndex.insert (index : OrderIndex) (orderId : ℤ) (location : OrderLocation) :
    OrderIndex :=
  Function.update index orderId (some location)

/-- How the sum of two `int64` prices is read: exactly, or as the machine wraps it round. -/
class PriceSum where
  /-- The value of `a + b`. -/
  add : ℤ → ℤ → ℤ

/-- Prices are added as integers. -/
abbrev PriceSum.exact : PriceSum := ⟨fun a b => a + b⟩

/-- Prices are added modulo `2 ^ 64`, in two's complement. -/
abbrev PriceSum.int64 : PriceSum := ⟨fun a b => (a + b).bmod (2 ^ 64)⟩

/-- The state of the engine of one instrument. -/
structure MatchingEngine where
  bids : Bids
  asks : Asks
  orderIndex : OrderIndex
  midPrice : Option ℤ

/-- An engine in which nothing has rested yet. -/
def MatchingEngine.empty : MatchingEngine := ⟨FlatMap.empty, FlatMap.empty, fun _ => none, none⟩

/-! ## The matching loops -/

/-- The trade of an incoming order with an order resting at `price`. -/
def tradeWith (incoming : OrderAdd) (price : ℤ) (resting : RestingOrder) (traded : ℤ) :
    Trade where
  makerId := resting.userId
  takerId := incoming.userId
  makerOrderId := resting.orderId
  takerOrderId := incoming.orderId
  ticker := incoming.ticker
  takerSide := incoming.side
  executionPrice := price  -- trades print at the resting (maker) price
  volume := traded

/-- What the inner loop leaves behind. -/
structure LevelMatch where
  level : PriceLevel
  remaining : ℤ
  orderIndex : OrderIndex
  trades : List Trade

/-- The inner loop of `Match`: fill the incoming order against the level at `price`, front
first, while volume remains. -/
def matchLevel (incoming : OrderAdd) (price : ℤ) :
    PriceLevel → ℤ → OrderIndex → LevelMatch
  | [], remaining, index => ⟨[], remaining, index, []⟩
  | resting :: level, remaining, index =>
    if 0 < remaining then
      let traded := min remaining resting.volume
      if resting.volume - traded = 0 then
        let m := matchLevel incoming price level (remaining - traded)
          (index.erase resting.orderId)
        { m with trades := tradeWith incoming price resting traded :: m.trades }
      else
        -- the resting order was larger than what remained, so the guard fails next
        ⟨{ resting with volume := resting.volume - traded } :: level, remaining - traded, index,
          [tradeWith incoming price resting traded]⟩
    else ⟨resting :: level, remaining, index, []⟩

/-- What the outer loop leaves behind. -/
structure BookMatch where
  entries : List (ℤ × PriceLevel)
  remaining : ℤ
  orderIndex : OrderIndex
  trades : List Trade

/-- The outer loop of `Match`: walk the levels best price first while volume remains and the
best price crosses, erasing the levels that become empty. -/
def matchEntries (priceCrosses : ℤ → ℤ → Bool) (incoming : OrderAdd) :
    List (ℤ × PriceLevel) → ℤ → OrderIndex → BookMatch
  | [], remaining, index => ⟨[], remaining, index, []⟩
  | (price, level) :: book, remaining, index =>
    if 0 < remaining then
      if priceCrosses incoming.price price then
        let m := matchLevel incoming price level remaining index
        if m.level.isEmpty then
          let r := matchEntries priceCrosses incoming book m.remaining m.orderIndex
          { r with trades := m.trades ++ r.trades }
        else
          -- orders are left at the best price, so nothing remains and the guard fails next
          ⟨(price, m.level) :: book, m.remaining, m.orderIndex, m.trades⟩
      else ⟨(price, level) :: book, remaining, index, []⟩
    else ⟨(price, level) :: book, remaining, index, []⟩

section Loops

variable {incoming : OrderAdd} {price remaining : ℤ} {resting : RestingOrder} {level : PriceLevel}
  {index : OrderIndex} {priceCrosses : ℤ → ℤ → Bool} {book : List (ℤ × PriceLevel)}

/-- The inner loop is left when nothing remains. -/
lemma matchLevel_of_not_pos (h : ¬ 0 < remaining) :
    matchLevel incoming price level remaining index = ⟨level, remaining, index, []⟩ := by
  cases level with
  | nil => rfl
  | cons resting level => rw [matchLevel, if_neg h]

/-- A resting order that fits into what remains is filled and popped. -/
lemma matchLevel_cons_of_le (hpos : 0 < remaining) (hle : resting.volume ≤ remaining) :
    matchLevel incoming price (resting :: level) remaining index =
      { matchLevel incoming price level (remaining - resting.volume)
          (index.erase resting.orderId) with
        trades := tradeWith incoming price resting resting.volume ::
          (matchLevel incoming price level (remaining - resting.volume)
            (index.erase resting.orderId)).trades } := by
  simp only [matchLevel, if_pos hpos, min_eq_right hle, sub_self, if_true]

/-- A resting order larger than what remains keeps its place with the difference. -/
lemma matchLevel_cons_of_lt (hpos : 0 < remaining) (hlt : remaining < resting.volume) :
    matchLevel incoming price (resting :: level) remaining index =
      ⟨{ resting with volume := resting.volume - remaining } :: level, 0, index,
        [tradeWith incoming price resting remaining]⟩ := by
  have hleft : resting.volume - remaining ≠ 0 := by omega
  simp only [matchLevel, if_pos hpos, min_eq_left hlt.le, sub_self, if_neg hleft]

/-- An order that survives the inner loop leaves nothing remaining. -/
lemma matchLevel_remaining_of_ne_nil
    (h : (matchLevel incoming price level remaining index).level ≠ []) :
    (matchLevel incoming price level remaining index).remaining ≤ 0 := by
  induction level generalizing remaining index with
  | nil => exact absurd rfl h
  | cons resting level ih =>
    by_cases hpos : 0 < remaining
    · rcases le_or_gt resting.volume remaining with hle | hlt
      · rw [matchLevel_cons_of_le hpos hle] at h ⊢
        exact ih h
      · rw [matchLevel_cons_of_lt hpos hlt]
    · rw [matchLevel_of_not_pos hpos]
      exact not_lt.mp hpos

/-- The inner loop as it stands in the source: one fill of the front order, which is popped when
it is exhausted, and then the loop again. -/
theorem matchLevel_cons (hpos : 0 < remaining) :
    matchLevel incoming price (resting :: level) remaining index =
      let traded := min remaining resting.volume
      let left := resting.volume - traded
      let m := if left = 0
        then matchLevel incoming price level (remaining - traded) (index.erase resting.orderId)
        else matchLevel incoming price ({ resting with volume := left } :: level)
          (remaining - traded) index
      { m with trades := tradeWith incoming price resting traded :: m.trades } := by
  rcases le_or_gt resting.volume remaining with hle | hlt
  · rw [matchLevel_cons_of_le hpos hle]
    simp [min_eq_right hle]
  · have hleft : resting.volume - remaining ≠ 0 := by omega
    rw [matchLevel_cons_of_lt hpos hlt]
    simp [min_eq_left hlt.le, hleft, matchLevel_of_not_pos]

/-- The outer loop is left when nothing remains or the best price does not cross. -/
lemma matchEntries_of_stop
    (h : 0 < remaining → ∀ e ∈ book.head?, priceCrosses incoming.price e.1 = false) :
    matchEntries priceCrosses incoming book remaining index = ⟨book, remaining, index, []⟩ := by
  cases book with
  | nil => rfl
  | cons e book =>
    obtain ⟨price, level⟩ := e
    by_cases hpos : 0 < remaining
    · have hcross : priceCrosses incoming.price price = false := h hpos _ rfl
      simp [matchEntries, hcross]
    · rw [matchEntries, if_neg hpos]

/-- A level that the inner loop empties is erased and the outer loop goes on. -/
lemma matchEntries_cons_of_nil (hpos : 0 < remaining)
    (hcross : priceCrosses incoming.price price = true)
    (hnil : (matchLevel incoming price level remaining index).level = []) :
    matchEntries priceCrosses incoming ((price, level) :: book) remaining index =
      { matchEntries priceCrosses incoming book
          (matchLevel incoming price level remaining index).remaining
          (matchLevel incoming price level remaining index).orderIndex with
        trades := (matchLevel incoming price level remaining index).trades ++
          (matchEntries priceCrosses incoming book
            (matchLevel incoming price level remaining index).remaining
            (matchLevel incoming price level remaining index).orderIndex).trades } := by
  simp [matchEntries, hpos, hcross, hnil]

/-- A level with orders left stays the best one. -/
lemma matchEntries_cons_of_ne_nil (hpos : 0 < remaining)
    (hcross : priceCrosses incoming.price price = true)
    (hne : (matchLevel incoming price level remaining index).level ≠ []) :
    matchEntries priceCrosses incoming ((price, level) :: book) remaining index =
      ⟨(price, (matchLevel incoming price level remaining index).level) :: book,
        (matchLevel incoming price level remaining index).remaining,
        (matchLevel incoming price level remaining index).orderIndex,
        (matchLevel incoming price level remaining index).trades⟩ := by
  simp [matchEntries, hpos, hcross, hne]

/-- The outer loop as it stands in the source: the inner loop on the best level, which is erased
when it is empty, and then the loop again. -/
theorem matchEntries_cons (hpos : 0 < remaining)
    (hcross : priceCrosses incoming.price price = true) :
    matchEntries priceCrosses incoming ((price, level) :: book) remaining index =
      let m := matchLevel incoming price level remaining index
      let r := if m.level = []
        then matchEntries priceCrosses incoming book m.remaining m.orderIndex
        else matchEntries priceCrosses incoming ((price, m.level) :: book) m.remaining m.orderIndex
      { r with trades := m.trades ++ r.trades } := by
  by_cases hnil : (matchLevel incoming price level remaining index).level = []
  · rw [matchEntries_cons_of_nil hpos hcross hnil]
    simp [hnil]
  · have hdone := matchLevel_remaining_of_ne_nil hnil
    rw [matchEntries_cons_of_ne_nil hpos hcross hnil]
    simp [hnil, matchEntries_of_stop fun h => absurd h hdone.not_gt]

/-- Every trade of the inner loop is one of the incoming order at the price of the level. -/
lemma exists_tradeWith_of_mem_matchLevel {t : Trade}
    (h : t ∈ (matchLevel incoming price level remaining index).trades) :
    ∃ resting traded, t = tradeWith incoming price resting traded := by
  induction level generalizing remaining index with
  | nil => cases h
  | cons resting level ih =>
    by_cases hpos : 0 < remaining
    · rcases le_or_gt resting.volume remaining with hle | hlt
      · rw [matchLevel_cons_of_le hpos hle] at h
        rcases List.mem_cons.mp h with rfl | h
        · exact ⟨resting, resting.volume, rfl⟩
        · exact ih h
      · rw [matchLevel_cons_of_lt hpos hlt] at h
        exact ⟨resting, remaining, List.mem_singleton.mp h⟩
    · rw [matchLevel_of_not_pos hpos] at h
      cases h

/-- Every trade of the outer loop is one of the incoming order. -/
lemma exists_tradeWith_of_mem_matchEntries {t : Trade}
    (h : t ∈ (matchEntries priceCrosses incoming book remaining index).trades) :
    ∃ price resting traded, t = tradeWith incoming price resting traded := by
  induction book generalizing remaining index with
  | nil => cases h
  | cons e book ih =>
    obtain ⟨price, level⟩ := e
    rw [matchEntries] at h
    split_ifs at h
    · dsimp only at h
      split_ifs at h
      · rcases List.mem_append.mp h with h | h
        · exact ⟨price, exists_tradeWith_of_mem_matchLevel h⟩
        · exact ih h
      · exact ⟨price, exists_tradeWith_of_mem_matchLevel h⟩
    · cases h
    · cases h

end Loops

/-- The outer loop only drops levels from the front. -/
lemma keys_matchEntries_sublist (priceCrosses : ℤ → ℤ → Bool) (incoming : OrderAdd)
    (book : List (ℤ × PriceLevel)) (remaining : ℤ) (index : OrderIndex) :
    ((matchEntries priceCrosses incoming book remaining index).entries.map Prod.fst).Sublist
      (book.map Prod.fst) := by
  induction book generalizing remaining index with
  | nil => exact List.Sublist.refl _
  | cons e book ih =>
    obtain ⟨price, level⟩ := e
    rw [matchEntries]
    split_ifs
    · dsimp only
      split_ifs
      · exact (ih _ _).cons price
      · exact List.Sublist.refl _
    · exact List.Sublist.refl _
    · exact List.Sublist.refl _

namespace MatchingEngine

/-- `Match`: fill the incoming order against a book.  Besides the book and the index it returns
the volume left unfilled and the trades. -/
def matchBook {s : Side} (book : Book s) (index : OrderIndex) (incoming : OrderAdd)
    (remaining : ℤ) (priceCrosses : ℤ → ℤ → Bool) :
    Book s × OrderIndex × ℤ × List Trade :=
  let m := matchEntries priceCrosses incoming book.entries remaining index
  (book.ofSublist m.entries (keys_matchEntries_sublist _ _ _ _ _), m.orderIndex, m.remaining,
    m.trades)

/-! ## Resting, erasing and the mid price -/

/-- Rest the unfilled remainder of an order at the back of the level of its price. -/
def rest (e : MatchingEngine) (order : OrderAdd) (remaining : ℤ) : MatchingEngine :=
  let resting : RestingOrder := ⟨order.orderId, order.userId, remaining⟩
  let index := e.orderIndex.insert order.orderId ⟨order.side, order.price, order.userId⟩
  match order.side with
  | .buy => { e with bids := e.bids.upsert [] (· ++ [resting]) order.price, orderIndex := index }
  | .sell => { e with asks := e.asks.upsert [] (· ++ [resting]) order.price, orderIndex := index }

/-- Erase every order with the given id from the level at `price`, and the level with its last
order. -/
def eraseFromBook {s : Side} (book : Book s) (price : ℤ) (orderId : ℤ) : Book s :=
  book.alter (FlatMap.keep fun o => o.orderId ≠ orderId) price

/-- Recompute the mid price from the top of the books and publish it.  When both sides are
empty the last known mid price is left in place. -/
def updateMidPrice [PriceSum] (e : MatchingEngine) : MatchingEngine :=
  match e.bids.entries, e.asks.entries with
  | (bid, _) :: _, (ask, _) :: _ => { e with midPrice := some ((PriceSum.add bid ask).tdiv 2) }
  | (bid, _) :: _, [] => { e with midPrice := some bid }
  | [], (ask, _) :: _ => { e with midPrice := some ask }
  | [], [] => e

/-! ## The two operations -/

/-- Match an order against the book and rest the remainder; the trades are those given to the
trade handler, in order. -/
def onOrderAdd [PriceSum] (e : MatchingEngine) (order : OrderAdd) : MatchingEngine × List Trade :=
  match order.side with
  | .buy =>
    let (asks, index, remaining, trades) := matchBook e.asks e.orderIndex order order.volume
      fun buyPrice askPrice => buyPrice ≥ askPrice
    let e' : MatchingEngine := { e with asks, orderIndex := index }
    let e'' := if 0 < remaining then e'.rest order remaining else e'
    (e''.updateMidPrice, trades)
  | .sell =>
    let (bids, index, remaining, trades) := matchBook e.bids e.orderIndex order order.volume
      fun sellPrice bidPrice => sellPrice ≤ bidPrice
    let e' : MatchingEngine := { e with bids, orderIndex := index }
    let e'' := if 0 < remaining then e'.rest order remaining else e'
    (e''.updateMidPrice, trades)

/-- Remove a resting order.  Nothing happens if the order is unknown or the cancel is not from
the recorded owner. -/
def onOrderCancel [PriceSum] (e : MatchingEngine) (cancel : OrderCancel) : MatchingEngine :=
  match e.orderIndex cancel.orderId with
  | none => e
  | some location =>
    if location.userId ≠ cancel.userId then e
    else
      let e' : MatchingEngine := match location.side with
        | .buy => { e with bids := eraseFromBook e.bids location.price cancel.orderId }
        | .sell => { e with asks := eraseFromBook e.asks location.price cancel.orderId }
      { e' with orderIndex := e'.orderIndex.erase cancel.orderId }.updateMidPrice

/-- One command given to an engine, and the trades it causes. -/
def step [PriceSum] (e : MatchingEngine) : InboundCommand → MatchingEngine × List Trade
  | .add order => e.onOrderAdd order
  | .cancel request => (e.onOrderCancel request, [])

/-- The engine after a sequence of commands given to an empty one. -/
def after [PriceSum] (cmds : List InboundCommand) : MatchingEngine :=
  (Mealy.run step empty cmds).1

/-- The trades caused by a sequence of commands given to an empty engine. -/
def tradesOf [PriceSum] (cmds : List InboundCommand) : List Trade :=
  (Mealy.run step empty cmds).2

end MatchingEngine

end ToyExchange
