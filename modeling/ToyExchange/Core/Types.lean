import Mathlib.Data.Rat.Defs
import Mathlib.Tactic.Common

/-!
# Core types and messages

The data model shared by all parts of the exchange: the strong types over `int64`, the sides of
the book, the closed list of instruments, the inbound requests and the trades.

The strong types `Price`, `Volume`, `UserId` and `OrderId` wrap an `int64`; here their values are
integers, so that a statement about all integers covers every 64-bit value, and the fields keep
their names apart.  Prices are downscaled USD (see `priceMultiplier`).  The one sum of two
client-supplied prices inside the engine is read through a parameter (see `PriceSum`).  `USD` is
an exact rational.
-/

namespace ToyExchange

/-- The number of price units in one USD. -/
def priceMultiplier : ℤ := 1000000

/-- A price in USD. -/
def toUsd (price : ℤ) : ℚ := (price : ℚ) / (priceMultiplier : ℚ)

/-- The capacity of a ticker. -/
def maxTickerLength : ℕ := 15

/-- A fixed-capacity string of bytes. -/
structure Ticker where
  /-- The characters. -/
  chars : List UInt8
  /-- The capacity is not exceeded. -/
  length_le : chars.length ≤ maxTickerLength
deriving DecidableEq

/-- The ticker `AAPL`. -/
def Ticker.aapl : Ticker := ⟨[0x41, 0x41, 0x50, 0x4C], by decide⟩

/-- The ticker `GOOG`. -/
def Ticker.goog : Ticker := ⟨[0x47, 0x4F, 0x4F, 0x47], by decide⟩

/-- The ticker `MSFT`. -/
def Ticker.msft : Ticker := ⟨[0x4D, 0x53, 0x46, 0x54], by decide⟩

/-- The ticker `AMZN`. -/
def Ticker.amzn : Ticker := ⟨[0x41, 0x4D, 0x5A, 0x4E], by decide⟩

/-- The closed set of tradable equities. -/
def instruments : List Ticker := [Ticker.aapl, Ticker.goog, Ticker.msft, Ticker.amzn]

/-- The side of an order. -/
inductive Side where
  | buy
  | sell
deriving DecidableEq

/-- The other side. -/
def Side.opposite : Side → Side
  | .buy => .sell
  | .sell => .buy

@[simp] lemma Side.opposite_opposite (s : Side) : s.opposite.opposite = s := by
  cases s <;> rfl

lemma Side.opposite_ne (s : Side) : s.opposite ≠ s := by
  cases s <;> decide

/-- There are only two sides. -/
lemma Side.eq_or_eq_opposite (s t : Side) : t = s ∨ t = s.opposite := by
  cases s <;> cases t <;> decide

/-- Inbound request to add a new resting limit order. -/
structure OrderAdd where
  orderId : ℤ
  userId : ℤ
  ticker : Ticker
  side : Side
  price : ℤ
  volume : ℤ
deriving DecidableEq

/-- Inbound request to remove a previously added order.  Only the owning user may cancel it;
the ticker picks the book the cancel is routed to. -/
structure OrderCancel where
  orderId : ℤ
  userId : ℤ
  ticker : Ticker
deriving DecidableEq

/-- What the gateway hands to the matching engine: an `OrderAdd` or an `OrderCancel`. -/
inductive InboundCommand where
  | add (order : OrderAdd)
  | cancel (request : OrderCancel)
deriving DecidableEq

/-- The user who issued a command. -/
def InboundCommand.userId : InboundCommand → ℤ
  | .add order => order.userId
  | .cancel request => request.userId

/-- The ticker a command is routed by. -/
def InboundCommand.ticker : InboundCommand → Ticker
  | .add order => order.ticker
  | .cancel request => request.ticker

/-- A fill of an incoming (taker) order against a resting (maker) one. -/
structure Trade where
  makerId : ℤ
  takerId : ℤ
  makerOrderId : ℤ
  takerOrderId : ℤ
  ticker : Ticker
  /-- The maker's side is always the opposite. -/
  takerSide : Side
  executionPrice : ℤ
  volume : ℤ
deriving DecidableEq

/-- A message of the market-data feed. -/
inductive MarketEvent where
  | orderAdd (order : OrderAdd)
  | orderCancel (cancel : OrderCancel)
  | trade (trade : Trade)
deriving DecidableEq

end ToyExchange
