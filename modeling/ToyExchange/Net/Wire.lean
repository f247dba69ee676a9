import ToyExchange.Core.Types
import ToyExchange.Foundations.Bytes

/-!
# The wire format of the exchange

What goes over the wire are packed structs, read and written in place: a message is a type byte and
a union.  The host is little-endian with two's-complement integers, and a member of a packed struct
lies right behind the one declared before it.

Decoding reads the members of a struct at their offsets (`WireOrderAdd.load`), and encoding writes
them (`encodeOrderAddEvent`), into a message of which only the first member of the union was
initialized; what its other bytes hold is not specified.
-/

namespace ToyExchange

open Bytes

/-! ## Layouts -/

/-- The size of a ticker field: the characters and a NUL. -/
def wireTickerSize : ℕ := maxTickerLength + 1

/-- The size of `WireOrderAdd` and of `WireOrderAddEvent`. -/
def wireOrderAddSize : ℕ := 8 + 8 + wireTickerSize + 1 + 8 + 8

/-- The size of `WireOrderCancel` and of `WireOrderCancelEvent`. -/
def wireOrderCancelSize : ℕ := 8 + 8 + wireTickerSize

/-- The size of `WireTradeEvent`. -/
def wireTradeEventSize : ℕ := 8 + 8 + 8 + 8 + wireTickerSize + 1 + 8 + 8

/-- The size of `InboundWireMessage`: the type and the largest member of the union. -/
def inboundWireMessageSize : ℕ := 1 + max wireOrderAddSize wireOrderCancelSize

/-- The size of `WireMarketDataMessage`. -/
def wireMarketDataMessageSize : ℕ :=
  1 + max (max wireOrderAddSize wireOrderCancelSize) wireTradeEventSize

example : inboundWireMessageSize = 50 ∧ wireMarketDataMessageSize = 66 := by decide

/-- The 64-bit integer at an offset. -/
def int64At (off : ℕ) (m : List UInt8) : ℤ := decodeInt (slice off 8 m)

/-- The unsigned byte at an offset. -/
def byteAt (off : ℕ) (m : List UInt8) : ℕ := leNat (slice off 1 m)

/-- An inbound request to add an order, as it lies in memory. -/
structure WireOrderAdd where
  orderId : ℤ
  userId : ℤ
  ticker : List UInt8
  /-- 0 is a buy. -/
  side : ℕ
  price : ℤ
  volume : ℤ

/-- An inbound request to cancel an order, as it lies in memory. -/
structure WireOrderCancel where
  orderId : ℤ
  userId : ℤ
  ticker : List UInt8

/-- The struct at an offset. -/
def WireOrderAdd.load (off : ℕ) (m : List UInt8) : WireOrderAdd where
  orderId := int64At off m
  userId := int64At (off + 8) m
  ticker := slice (off + 16) wireTickerSize m
  side := byteAt (off + 16 + wireTickerSize) m
  price := int64At (off + 16 + wireTickerSize + 1) m
  volume := int64At (off + 16 + wireTickerSize + 9) m

/-- The struct at an offset. -/
def WireOrderCancel.load (off : ℕ) (m : List UInt8) : WireOrderCancel where
  orderId := int64At off m
  userId := int64At (off + 8) m
  ticker := slice (off + 16) wireTickerSize m

/-! ## Decoding -/

/-- The characters of a ticker field before the first NUL, if they do not exceed the capacity of a
ticker.  Otherwise the constructor of the ticker throws. -/
def decodeTicker (field : List UInt8) : Option Ticker :=
  if h : (cString field).length ≤ maxTickerLength then some ⟨cString field, h⟩ else none

/-- The request that a struct stands for. -/
def decodeOrderAdd (w : WireOrderAdd) : Option OrderAdd :=
  (decodeTicker w.ticker).map fun ticker =>
    { orderId := w.orderId
      userId := w.userId
      ticker := ticker
      side := if w.side = 0 then .buy else .sell
      price := w.price
      volume := w.volume }

/-- The request that a struct stands for. -/
def decodeOrderCancel (w : WireOrderCancel) : Option OrderCancel :=
  (decodeTicker w.ticker).map fun ticker => ⟨w.orderId, w.userId, ticker⟩

/-- The command of a whole inbound message.  Anything other than an add is taken as a cancel. -/
def decodeInboundMessage (m : List UInt8) : Option InboundCommand :=
  if byteAt 0 m = 0 then (decodeOrderAdd (.load 1 m)).map .add
  else (decodeOrderCancel (.load 1 m)).map .cancel

/-! ## Encoding -/

/-- A ticker field: NULs, overwritten by the characters. -/
def encodeTicker (ticker : Ticker) : List UInt8 :=
  store 0 ticker.chars (List.replicate wireTickerSize 0)

/-- The byte of a side. -/
def encodeSide : Side → UInt8
  | .buy => 0
  | .sell => 1

/-- A message whose type and whose first member of the union are zero; the other bytes of the union
are those given. -/
def blankMessage (rest : Fin (wireMarketDataMessageSize - (1 + wireOrderAddSize)) → UInt8) :
    List UInt8 :=
  List.replicate (1 + wireOrderAddSize) 0 ++ List.ofFn rest

section Events

variable (rest : Fin (wireMarketDataMessageSize - (1 + wireOrderAddSize)) → UInt8)

/-- The message of an add. -/
def encodeOrderAddEvent (order : OrderAdd) : List UInt8 :=
  let msg := store 0 [0] (blankMessage rest)
  let msg := store 1 (encodeInt 8 order.orderId) msg
  let msg := store 9 (encodeInt 8 order.userId) msg
  let msg := store 17 (encodeTicker order.ticker) msg
  let msg := store (17 + wireTickerSize) [encodeSide order.side] msg
  let msg := store (17 + wireTickerSize + 1) (encodeInt 8 order.price) msg
  store (17 + wireTickerSize + 9) (encodeInt 8 order.volume) msg

/-- The message of a cancel. -/
def encodeOrderCancelEvent (cancel : OrderCancel) : List UInt8 :=
  let msg := store 0 [1] (blankMessage rest)
  let msg := store 1 (encodeInt 8 cancel.orderId) msg
  let msg := store 9 (encodeInt 8 cancel.userId) msg
  store 17 (encodeTicker cancel.ticker) msg

/-- The message of a trade. -/
def encodeTradeEvent (trade : Trade) : List UInt8 :=
  let msg := store 0 [2] (blankMessage rest)
  let msg := store 1 (encodeInt 8 trade.makerId) msg
  let msg := store 9 (encodeInt 8 trade.takerId) msg
  let msg := store 17 (encodeInt 8 trade.makerOrderId) msg
  let msg := store 25 (encodeInt 8 trade.takerOrderId) msg
  let msg := store 33 (encodeTicker trade.ticker) msg
  let msg := store (33 + wireTickerSize) [encodeSide trade.takerSide] msg
  let msg := store (33 + wireTickerSize + 1) (encodeInt 8 trade.executionPrice) msg
  store (33 + wireTickerSize + 9) (encodeInt 8 trade.volume) msg

/-- The message of an event. -/
def encodeEvent : MarketEvent → List UInt8
  | .orderAdd order => encodeOrderAddEvent rest order
  | .orderCancel cancel => encodeOrderCancelEvent rest cancel
  | .trade trade => encodeTradeEvent rest trade

end Events

/-! ## Tickers -/

/-- The text is NUL-free ASCII. -/
def Ticker.IsAscii (ticker : Ticker) : Prop := ∀ b ∈ ticker.chars, b ≠ 0 ∧ b < 128

/-- A ticker field is the characters of the ticker, filled up with NULs. -/
lemma encodeTicker_eq_padded (ticker : Ticker) :
    encodeTicker ticker = padded wireTickerSize ticker.chars := by
  unfold encodeTicker store padded
  rw [List.take_zero, List.nil_append, Nat.zero_add, List.drop_replicate]

@[simp] lemma length_encodeTicker (ticker : Ticker) : (encodeTicker ticker).length = 16 := by
  rw [encodeTicker_eq_padded]
  exact length_padded (Nat.le_succ_of_le ticker.length_le)

/-- A ticker without NULs is read back. -/
lemma decodeTicker_padded {ticker : Ticker} (h : ∀ b ∈ ticker.chars, b ≠ 0) :
    decodeTicker (padded wireTickerSize ticker.chars) = some ticker := by
  unfold decodeTicker
  simp only [cString_padded h]
  exact dif_pos ticker.length_le

end ToyExchange
