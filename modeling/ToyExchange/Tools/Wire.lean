import ToyExchange.Core.Types
import ToyExchange.Foundations.StructFormat

/-!
# The wire format of the tools

The tools pack and unpack the messages of the exchange with format strings of their own, which have
to be kept in step with the packed structs by hand.  Texts are lists of characters, and what raises
an exception returns an error.
-/

namespace ToyExchange

namespace Tools

open StructFormat

/-! ## Constants -/

/-- `MAX_TICKER_LENGTH` of the tools. -/
def maxTickerLength : ℕ := 15

/-- `WIRE_TICKER_SIZE` of the tools. -/
def wireTickerSize : ℕ := maxTickerLength + 1

/-- `SIDE_BUY`. -/
def sideBuy : ℤ := 0

/-- `SIDE_SELL`. -/
def sideSell : ℤ := 1

/-- `_ORDER_ADD_FMT`, also that of an add event. -/
def orderAddFormat : List Member := (parse "<qq16sBqq").getD []

/-- `_ORDER_CANCEL_FMT`, also that of a cancel event. -/
def orderCancelFormat : List Member := (parse "<qq16s").getD []

/-- `_TRADE_EVENT_FMT`. -/
def tradeEventFormat : List Member := (parse "<qqqq16sBqq").getD []

/-- The format of a type byte. -/
def typeFormat : List Member := (parse "<B").getD []

/-- `_INBOUND_UNION_SIZE`: the size of the largest member. -/
def inboundUnionSize : ℕ := calcsize orderAddFormat

/-- `INBOUND_MESSAGE_SIZE`. -/
def inboundMessageSize : ℕ := 1 + inboundUnionSize

/-- `MARKET_DATA_MESSAGE_SIZE`. -/
def marketDataMessageSize : ℕ :=
  1 + max (max (calcsize orderAddFormat) (calcsize orderCancelFormat)) (calcsize tradeEventFormat)

lemma orderAddFormat_eq :
    orderAddFormat = [.int64, .int64, .bytes 16, .uint8, .int64, .int64] := by decide

lemma orderCancelFormat_eq : orderCancelFormat = [.int64, .int64, .bytes 16] := by decide

lemma tradeEventFormat_eq :
    tradeEventFormat =
      [.int64, .int64, .int64, .int64, .bytes 16, .uint8, .int64, .int64] := by decide

/-! ## Errors and texts -/

/-- The exceptions of the module. -/
inductive WireError where
  /-- A value does not fit its member, or bytes are not those of a record. -/
  | structError
  | unicodeEncodeError
  | unicodeDecodeError
  /-- The ticker is too long for the wire format. -/
  | tickerTooLong (ticker : List Char)
  /-- A market data message of another size was expected. -/
  | wrongSize (expected got : ℕ)
  | assertionError

/-- `encode("ascii")`. -/
def encodeAscii : List Char → Except WireError (List UInt8)
  | [] => .ok []
  | ch :: text =>
    if ch.toNat < 128 then (encodeAscii text).map (UInt8.ofNat ch.toNat :: ·)
    else .error .unicodeEncodeError

/-- `decode("ascii")`. -/
def decodeAscii : List UInt8 → Except WireError (List Char)
  | [] => .ok []
  | b :: raw =>
    if b < 128 then (decodeAscii raw).map (Char.ofNat b.toNat :: ·)
    else .error .unicodeDecodeError

/-- The bytes of a ticker field. -/
def encodeTicker (ticker : List Char) : Except WireError (List UInt8) := do
  let raw ← encodeAscii ticker
  if wireTickerSize ≤ raw.length then throw (.tickerTooLong ticker)
  return Bytes.padded wireTickerSize raw

/-- The text of a ticker field: what stands before the first NUL. -/
def decodeTicker (raw : List UInt8) : Except WireError (List Char) :=
  decodeAscii (Bytes.cString raw)

/-- `struct.pack`. -/
def structPack (format : List Member) (values : List Value) : Except WireError (List UInt8) :=
  match pack format values with
  | some bs => .ok bs
  | none => .error .structError

lemma structPack_of_pack {format : List Member} {values : List Value} {bs : List UInt8}
    (h : pack format values = some bs) : structPack format values = .ok bs := by
  unfold structPack
  rw [h]

/-! ## Inbound messages -/

/-- A type byte and a payload, filled up to the size of the union. -/
def inboundMessage (type : ℤ) (payload : List UInt8) : Except WireError (List UInt8) := do
  let head ← structPack typeFormat [.int type]
  let message := head ++ Bytes.padded inboundUnionSize payload
  if message.length = inboundMessageSize then return message else throw .assertionError

/-- `encode_order_add`. -/
def encodeOrderAdd (orderId userId : ℤ) (ticker : List Char) (side price volume : ℤ) :
    Except WireError (List UInt8) := do
  let raw ← encodeTicker ticker
  let payload ← structPack orderAddFormat
    [.int orderId, .int userId, .bytes raw, .int side, .int price, .int volume]
  inboundMessage 0 payload

/-- `encode_order_cancel`. -/
def encodeOrderCancel (orderId userId : ℤ) (ticker : List Char) :
    Except WireError (List UInt8) := do
  let raw ← encodeTicker ticker
  let payload ← structPack orderCancelFormat [.int orderId, .int userId, .bytes raw]
  inboundMessage 1 payload

/-! ## Market data -/

/-- A decoded market data message. -/
inductive FeedMessage where
  | orderAdd (orderId userId : ℤ) (ticker : List Char) (side : Side) (price volume : ℤ)
  | orderCancel (orderId userId : ℤ) (ticker : List Char)
  | trade (makerId takerId makerOrderId takerOrderId : ℤ) (ticker : List Char) (takerSide : Side)
      (price volume : ℤ)
  /-- The message in hexadecimal. -/
  | unknown (raw : List Char)

/-- `hex()`: two digits for each byte. -/
def hex (data : List UInt8) : List Char :=
  data.flatMap fun b => [(b.toNat / 16).digitChar, (b.toNat % 16).digitChar]

/-- The side that a byte stands for. -/
def decodeSide (side : ℤ) : Side := if side = sideBuy then .buy else .sell

/-- `decode_market_data`. -/
def decodeMarketData (data : List UInt8) : Except WireError FeedMessage :=
  if data.length ≠ marketDataMessageSize then
    .error (.wrongSize marketDataMessageSize data.length)
  else
    let eventType := data.headD 0
    let payload := data.drop 1
    if eventType = 0 then
      match unpack orderAddFormat (payload.take (calcsize orderAddFormat)) with
      | some [.int orderId, .int userId, .bytes ticker, .int side, .int price, .int volume] => do
        let text ← decodeTicker ticker
        return .orderAdd orderId userId text (decodeSide side) price volume
      | _ => .error .structError
    else if eventType = 1 then
      match unpack orderCancelFormat (payload.take (calcsize orderCancelFormat)) with
      | some [.int orderId, .int userId, .bytes ticker] => do
        let text ← decodeTicker ticker
        return .orderCancel orderId userId text
      | _ => .error .structError
    else if eventType = 2 then
      match unpack tradeEventFormat (payload.take (calcsize tradeEventFormat)) with
      | some [.int makerId, .int takerId, .int makerOrderId, .int takerOrderId, .bytes ticker,
          .int takerSide, .int price, .int volume] => do
        let text ← decodeTicker ticker
        return .trade makerId takerId makerOrderId takerOrderId text (decodeSide takerSide) price
          volume
      | _ => .error .structError
    else .ok (.unknown (hex data))

/-! ## Texts of tickers -/

/-- The text of a byte string. -/
def textOf (chars : List UInt8) : List Char := chars.map fun b => Char.ofNat b.toNat

/-- An ASCII byte is the number of its character. -/
lemma toNat_charOf {b : UInt8} (h : b < 128) : (Char.ofNat b.toNat).toNat = b.toNat := by
  have hlt : b.toNat < 128 := h
  have hvalid : b.toNat.isValidChar := Or.inl (by omega)
  unfold Char.ofNat
  rw [dif_pos hvalid]
  rfl

/-- ASCII bytes are decoded into their text. -/
lemma decodeAscii_of_ascii {chars : List UInt8} (h : ∀ b ∈ chars, b < 128) :
    decodeAscii chars = .ok (textOf chars) := by
  induction chars with
  | nil => rfl
  | cons b chars ih =>
    obtain ⟨hb, hchars⟩ := List.forall_mem_cons.mp h
    rw [decodeAscii, if_pos hb, ih hchars]
    rfl

/-- Bytes that are not all ASCII are not decoded. -/
lemma decodeAscii_of_not_ascii {chars : List UInt8} (h : ∃ b ∈ chars, 128 ≤ b) :
    decodeAscii chars = .error .unicodeDecodeError := by
  induction chars with
  | nil =>
    obtain ⟨b, hb, -⟩ := h
    cases hb
  | cons b chars ih =>
    rw [decodeAscii]
    split_ifs with hb
    · obtain ⟨b', hmem, hb'⟩ := h
      rcases List.mem_cons.mp hmem with rfl | hmem
      · exact absurd hb (UInt8.not_lt.mpr hb')
      · rw [ih ⟨b', hmem, hb'⟩]
        rfl
    · rfl

/-- An ASCII text is encoded into its bytes. -/
lemma encodeAscii_textOf {chars : List UInt8} (h : ∀ b ∈ chars, b < 128) :
    encodeAscii (textOf chars) = .ok chars := by
  induction chars with
  | nil => rfl
  | cons b chars ih =>
    obtain ⟨hb, hchars⟩ := List.forall_mem_cons.mp h
    have hnat := toNat_charOf hb
    have hlt : (Char.ofNat b.toNat).toNat < 128 := by
      rw [hnat]
      exact hb
    change encodeAscii (Char.ofNat b.toNat :: textOf chars) = _
    rw [encodeAscii, if_pos hlt, ih hchars, hnat, UInt8.ofNat_toNat]
    rfl

/-- The bytes of an ASCII text. -/
lemma textOf_bytes {text : List Char} (h : ∀ ch ∈ text, ch.toNat < 128) :
    textOf (text.map fun ch => UInt8.ofNat ch.toNat) = text := by
  unfold textOf
  rw [List.map_map]
  refine (List.map_congr_left fun ch hch => ?_).trans (List.map_id text)
  have hlt := h ch hch
  have hbyte : (UInt8.ofNat ch.toNat).toNat = ch.toNat := by
    simp
    omega
  rw [Function.comp_apply, hbyte, Char.ofNat_toNat]
  rfl

end Tools

end ToyExchange
