import ToyExchange.Core.Types
import ToyExchange.Foundations.Dict
import Mathlib.Algebra.Group.Int.Defs

/-!
# The order book of a market-data listener

The listener rebuilds the books from the public events alone.  It keeps a dictionary of open
orders: an add rests the whole incoming order, a trade shrinks the order of the maker and that of
the taker and drops what has no volume left, and a cancel drops an order.

`OrderBook.levels` adds up the volumes by price, as the listener prints them.  `get_levelsOf`
reads it as a sum over the open orders.
-/

namespace ToyExchange

/-- An order as the listener remembers it. -/
structure OpenOrder where
  ticker : Ticker
  side : Side
  price : ℤ
  volume : ℤ
deriving DecidableEq

/-- The order that an add event announces. -/
def OpenOrder.ofAdd (order : OrderAdd) : OpenOrder :=
  ⟨order.ticker, order.side, order.price, order.volume⟩

/-- The listener's reconstruction of every resting order. -/
structure OrderBook where
  openOrders : Dict ℤ OpenOrder

namespace OrderBook

/-- A listener that has seen nothing. -/
def empty : OrderBook := ⟨Dict.empty⟩

/-- Take volume from an order and drop it when nothing is left; nothing if it is not known. -/
def shrink (b : OrderBook) (orderId volume : ℤ) : OrderBook :=
  match b.openOrders.get orderId with
  | none => b
  | some order =>
    if order.volume - volume ≤ 0 then ⟨b.openOrders.pop orderId⟩
    else ⟨b.openOrders.set orderId { order with volume := order.volume - volume }⟩

/-- Process one event. -/
def apply (b : OrderBook) : MarketEvent → OrderBook
  | .orderAdd order => ⟨b.openOrders.set order.orderId (OpenOrder.ofAdd order)⟩
  | .orderCancel cancel => ⟨b.openOrders.pop cancel.orderId⟩
  | .trade trade =>
    (b.shrink trade.makerOrderId trade.volume).shrink trade.takerOrderId trade.volume

/-- Process events in order. -/
def applyAll (b : OrderBook) (events : List MarketEvent) : OrderBook := events.foldl apply b

/-- One turn of the loop that adds up the volumes of a ticker by side and price. -/
def addLevel (ticker : Ticker) (books : Dict ℤ ℤ × Dict ℤ ℤ) (order : OpenOrder) :
    Dict ℤ ℤ × Dict ℤ ℤ :=
  if order.ticker ≠ ticker then books
  else
    match order.side with
    | .buy => (books.1.addTo order.price order.volume, books.2)
    | .sell => (books.1, books.2.addTo order.price order.volume)

/-- The bids and the asks of a ticker: volume by price. -/
def levels (b : OrderBook) (ticker : Ticker) : Dict ℤ ℤ × Dict ℤ ℤ :=
  b.openOrders.values.foldl (addLevel ticker) (Dict.empty, Dict.empty)

/-- One side of the levels. -/
def levelsOf (b : OrderBook) (ticker : Ticker) : Side → Dict ℤ ℤ
  | .buy => (b.levels ticker).1
  | .sell => (b.levels ticker).2

/-- The prices and volumes of the open orders of one side of a ticker. -/
def priceVolumes (orders : List OpenOrder) (ticker : Ticker) (s : Side) : List (ℤ × ℤ) :=
  (orders.filter fun o => o.ticker = ticker ∧ o.side = s).map fun o => (o.price, o.volume)

lemma priceVolumes_cons (o : OpenOrder) (orders : List OpenOrder) (ticker : Ticker) (s : Side) :
    priceVolumes (o :: orders) ticker s =
      if o.ticker = ticker ∧ o.side = s then (o.price, o.volume) :: priceVolumes orders ticker s
      else priceVolumes orders ticker s := by
  unfold priceVolumes
  by_cases h : o.ticker = ticker ∧ o.side = s
  · rw [if_pos h, List.filter_cons_of_pos (by simpa using h), List.map_cons]
  · rw [if_neg h, List.filter_cons_of_neg (by simpa using h)]

/-- The loop adds up the two sides separately. -/
lemma foldl_addLevel (ticker : Ticker) (orders : List OpenOrder) (books : Dict ℤ ℤ × Dict ℤ ℤ) :
    orders.foldl (addLevel ticker) books =
      ((priceVolumes orders ticker .buy).foldl (fun d x => d.addTo x.1 x.2) books.1,
        (priceVolumes orders ticker .sell).foldl (fun d x => d.addTo x.1 x.2) books.2) := by
  induction orders generalizing books with
  | nil => rfl
  | cons o orders ih =>
    rw [List.foldl_cons, ih, priceVolumes_cons, priceVolumes_cons, addLevel]
    by_cases hticker : o.ticker = ticker
    · cases hside : o.side <;> simp [hticker]
    · simp [hticker]

/-- The volume shown at a price is the sum over the open orders there, if there are any. -/
theorem get_levelsOf (b : OrderBook) (ticker : Ticker) (s : Side) (price : ℤ) :
    (b.levelsOf ticker s).get price =
      Dict.sumAt (priceVolumes b.openOrders.values ticker s) price := by
  have hget : ∀ l : List (ℤ × ℤ),
      (l.foldl (fun d x => d.addTo x.1 x.2) Dict.empty).get price = Dict.sumAt l price := by
    intro l
    rw [Dict.get_foldl_addTo]
    cases Dict.sumAt l price with
    | none => rfl
    | some v => exact congrArg some (zero_add v)
  cases s with
  | buy =>
    unfold levelsOf levels
    dsimp only
    rw [foldl_addLevel, hget]
  | sell =>
    unfold levelsOf levels
    dsimp only
    rw [foldl_addLevel, hget]

/-- Open orders that differ in their order only are shown alike. -/
lemma sumAt_priceVolumes_perm {l l' : List OpenOrder} (h : l.Perm l') (ticker : Ticker) (s : Side)
    (price : ℤ) :
    Dict.sumAt (priceVolumes l ticker s) price = Dict.sumAt (priceVolumes l' ticker s) price :=
  Dict.sumAt_perm ((h.filter _).map _) price

end OrderBook

end ToyExchange
