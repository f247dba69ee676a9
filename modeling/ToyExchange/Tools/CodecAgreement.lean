import ToyExchange.Net.Wire
import ToyExchange.Tools.Wire

/-!
# The two codecs agree

The exchange reads and writes packed structs in memory, the tools pack and unpack by format string.
Two facts connect them.  Unpacking a record reads the members of the struct at the same place
(`unpackAll_orderAdd`, `unpackAll_orderCancel`), so what the tools pack is what the exchange loads.
And the members that the exchange stores lie one behind the other, as the tools pack them
(`encodeOrderAddEvent_eq` and its companions), so what the exchange stores is what the tools unpack.

A frame that no encoder would write is decoded into a command, whose event has the fields of that
command and not the bytes of the frame.
-/

namespace ToyExchange

open Bytes StructFormat

/-! ## What the tools pack is what the exchange loads -/

/-- Unpacking an add reads the members of `WireOrderAdd`. -/
lemma unpackAll_orderAdd (off : ℕ) (m : List UInt8) :
    unpackAll Tools.orderAddFormat (slice off 49 m) =
      [.int (WireOrderAdd.load off m).orderId, .int (WireOrderAdd.load off m).userId,
        .bytes (WireOrderAdd.load off m).ticker, .int (WireOrderAdd.load off m).side,
        .int (WireOrderAdd.load off m).price, .int (WireOrderAdd.load off m).volume] := by
  rw [unpackAll_slice (by decide), Tools.orderAddFormat_eq]
  rfl

/-- Unpacking a cancel reads the members of `WireOrderCancel`. -/
lemma unpackAll_orderCancel (off : ℕ) (m : List UInt8) :
    unpackAll Tools.orderCancelFormat (slice off 32 m) =
      [.int (WireOrderCancel.load off m).orderId, .int (WireOrderCancel.load off m).userId,
        .bytes (WireOrderCancel.load off m).ticker] := by
  rw [unpackAll_slice (by decide), Tools.orderCancelFormat_eq]
  rfl

section Inbound

variable {ticker : Ticker} {orderId userId price volume : ℤ}

/-- The number of a side in the tools. -/
def sideNumber : Side → ℤ
  | .buy => Tools.sideBuy
  | .sell => Tools.sideSell

/-- The tools write the field of an ASCII ticker as the exchange does. -/
lemma encodeTicker_textOf (h : ticker.IsAscii) :
    Tools.encodeTicker (Tools.textOf ticker.chars) = .ok (padded 16 ticker.chars) := by
  have hascii := Tools.encodeAscii_textOf fun b hb => (h b hb).2
  have hshort : ¬ Tools.wireTickerSize ≤ ticker.chars.length :=
    not_le.mpr (Nat.lt_succ_of_le ticker.length_le)
  unfold Tools.encodeTicker
  rw [hascii]
  change (if Tools.wireTickerSize ≤ ticker.chars.length then _ else _) = _
  rw [if_neg hshort]
  rfl

/-- A payload is put behind the type byte and filled up to the size of the union. -/
lemma inboundMessage_eq {type : ℤ} {code : UInt8} {payload : List UInt8}
    (htype : Tools.structPack Tools.typeFormat [.int type] = .ok [code])
    (hlength : payload.length ≤ 49) :
    Tools.inboundMessage type payload = .ok (code :: padded 49 payload) := by
  have hsize : ([code] ++ padded Tools.inboundUnionSize payload).length =
      Tools.inboundMessageSize := by
    rw [List.length_append]
    exact congrArg (1 + ·) (length_padded hlength)
  unfold Tools.inboundMessage
  rw [htype]
  change (if ([code] ++ padded Tools.inboundUnionSize payload).length = _ then _ else _) = _
  rw [if_pos hsize]
  rfl

/-- The exchange loads what the tools have put into the payload of a message. -/
lemma slice_payload {n : ℕ} {payload : List UInt8} (hlength : payload.length = n) (code : UInt8) :
    slice 1 n (code :: padded 49 payload) = payload := by
  unfold slice padded
  rw [List.drop_succ_cons, List.drop_zero, ← hlength, List.take_left]

/-- What the tools encode as an add is what the exchange decodes. -/
theorem decode_encodeOrderAdd (hticker : ticker.IsAscii) (hid : SignedWord.InRange 64 orderId)
    (huser : SignedWord.InRange 64 userId) (side : Side) (hprice : SignedWord.InRange 64 price)
    (hvolume : SignedWord.InRange 64 volume) :
    ∃ message, Tools.encodeOrderAdd orderId userId (Tools.textOf ticker.chars) (sideNumber side)
        price volume = .ok message ∧ message.length = inboundWireMessageSize ∧
      decodeInboundMessage message =
        some (.add ⟨orderId, userId, ticker, side, price, volume⟩) := by
  have hfield : (padded 16 ticker.chars).length = 16 :=
    length_padded (Nat.le_succ_of_le ticker.length_le)
  have hside : 0 ≤ sideNumber side ∧ sideNumber side < 256 := by
    cases side <;> decide
  have hfits : List.Forall₂ Fits Tools.orderAddFormat
      [.int orderId, .int userId, .bytes (padded 16 ticker.chars), .int (sideNumber side),
        .int price, .int volume] := by
    rw [Tools.orderAddFormat_eq]
    exact .cons hid (.cons huser (.cons hfield (.cons hside (.cons hprice (.cons hvolume .nil)))))
  obtain ⟨payload, hpack, hlength, hunpack⟩ := pack_of_fits hfits
  have hsize : payload.length = 49 := hlength
  have hmessage : Tools.inboundMessage 0 payload = .ok (0 :: padded 49 payload) :=
    inboundMessage_eq rfl hsize.le
  refine ⟨0 :: padded 49 payload, ?_, ?_, ?_⟩
  · unfold Tools.encodeOrderAdd
    rw [encodeTicker_textOf hticker]
    change Tools.structPack Tools.orderAddFormat _ >>= _ = _
    rw [Tools.structPack_of_pack hpack]
    exact hmessage
  · exact congrArg (· + 1) (length_padded hsize.le)
  · have hload := unpackAll_orderAdd 1 (0 :: padded 49 payload)
    rw [slice_payload hsize, hunpack] at hload
    simp only [List.cons.injEq, Value.int.injEq, Value.bytes.injEq, and_true] at hload
    obtain ⟨hid', huser', hticker', hside', hprice', hvolume'⟩ := hload
    have hsideOf : (if (WireOrderAdd.load 1 (0 :: padded 49 payload)).side = 0 then Side.buy
        else .sell) = side := by
      cases side with
      | buy => exact if_pos (Int.natCast_eq_zero.mp hside'.symm)
      | sell =>
        refine if_neg fun hzero => ?_
        rw [hzero] at hside'
        exact absurd hside' (by decide)
    have hdecoded := decodeTicker_padded fun b hb => (hticker b hb).1
    unfold decodeInboundMessage decodeOrderAdd
    rw [if_pos (show byteAt 0 (0 :: padded 49 payload) = 0 from rfl), ← hticker', ← hid', ← huser',
      ← hprice', ← hvolume', hsideOf]
    exact congrArg (fun t => (Option.map _ t).map InboundCommand.add) hdecoded

/-- What the tools encode as a cancel is what the exchange decodes. -/
theorem decode_encodeOrderCancel (hticker : ticker.IsAscii) (hid : SignedWord.InRange 64 orderId)
    (huser : SignedWord.InRange 64 userId) :
    ∃ message, Tools.encodeOrderCancel orderId userId (Tools.textOf ticker.chars) = .ok message ∧
      message.length = inboundWireMessageSize ∧
      decodeInboundMessage message = some (.cancel ⟨orderId, userId, ticker⟩) := by
  have hfield : (padded 16 ticker.chars).length = 16 :=
    length_padded (Nat.le_succ_of_le ticker.length_le)
  have hfits : List.Forall₂ Fits Tools.orderCancelFormat
      [.int orderId, .int userId, .bytes (padded 16 ticker.chars)] := by
    rw [Tools.orderCancelFormat_eq]
    exact .cons hid (.cons huser (.cons hfield .nil))
  obtain ⟨payload, hpack, hlength, hunpack⟩ := pack_of_fits hfits
  have hsize : payload.length = 32 := hlength
  have hle : payload.length ≤ 49 := by omega
  have hmessage : Tools.inboundMessage 1 payload = .ok (1 :: padded 49 payload) :=
    inboundMessage_eq rfl hle
  refine ⟨1 :: padded 49 payload, ?_, ?_, ?_⟩
  · unfold Tools.encodeOrderCancel
    rw [encodeTicker_textOf hticker]
    change Tools.structPack Tools.orderCancelFormat _ >>= _ = _
    rw [Tools.structPack_of_pack hpack]
    exact hmessage
  · exact congrArg (· + 1) (length_padded hle)
  · have hload := unpackAll_orderCancel 1 (1 :: padded 49 payload)
    rw [slice_payload hsize, hunpack] at hload
    simp only [List.cons.injEq, Value.int.injEq, Value.bytes.injEq, and_true] at hload
    obtain ⟨hid', huser', hticker'⟩ := hload
    have hdecoded := decodeTicker_padded fun b hb => (hticker b hb).1
    have htype : byteAt 0 (1 :: padded 49 payload) ≠ 0 := by
      change (1 : ℕ) ≠ 0
      decide
    unfold decodeInboundMessage decodeOrderCancel
    rw [if_neg htype, ← hticker', ← hid', ← huser']
    exact congrArg (fun t => (Option.map _ t).map InboundCommand.cancel) hdecoded

end Inbound

/-! ## What the exchange stores is what the tools unpack -/

/-- The members of the event of an add. -/
def orderAddParts (order : OrderAdd) : List (List UInt8) :=
  [encodeInt 8 order.orderId, encodeInt 8 order.userId, encodeTicker order.ticker,
    [encodeSide order.side], encodeInt 8 order.price, encodeInt 8 order.volume]

/-- The members of the event of a cancel. -/
def orderCancelParts (cancel : OrderCancel) : List (List UInt8) :=
  [encodeInt 8 cancel.orderId, encodeInt 8 cancel.userId, encodeTicker cancel.ticker]

/-- The members of the event of a trade. -/
def tradeParts (trade : Trade) : List (List UInt8) :=
  [encodeInt 8 trade.makerId, encodeInt 8 trade.takerId, encodeInt 8 trade.makerOrderId,
    encodeInt 8 trade.takerOrderId, encodeTicker trade.ticker, [encodeSide trade.takerSide],
    encodeInt 8 trade.executionPrice, encodeInt 8 trade.volume]

lemma sizesMatch_orderAdd (order : OrderAdd) :
    SizesMatch Tools.orderAddFormat (orderAddParts order) := by
  rw [Tools.orderAddFormat_eq]
  exact .cons (length_encodeInt 8 _) (.cons (length_encodeInt 8 _)
    (.cons (length_encodeTicker _) (.cons rfl
      (.cons (length_encodeInt 8 _) (.cons (length_encodeInt 8 _) .nil)))))

lemma sizesMatch_orderCancel (cancel : OrderCancel) :
    SizesMatch Tools.orderCancelFormat (orderCancelParts cancel) := by
  rw [Tools.orderCancelFormat_eq]
  exact .cons (length_encodeInt 8 _) (.cons (length_encodeInt 8 _)
    (.cons (length_encodeTicker _) .nil))

lemma sizesMatch_trade (trade : Trade) :
    SizesMatch Tools.tradeEventFormat (tradeParts trade) := by
  rw [Tools.tradeEventFormat_eq]
  exact .cons (length_encodeInt 8 _) (.cons (length_encodeInt 8 _) (.cons (length_encodeInt 8 _)
    (.cons (length_encodeInt 8 _) (.cons (length_encodeTicker _) (.cons rfl
      (.cons (length_encodeInt 8 _) (.cons (length_encodeInt 8 _) .nil)))))))

section Stores

variable (rest : Fin (wireMarketDataMessageSize - (1 + wireOrderAddSize)) → UInt8)

lemma encodeOrderAddEvent_eq (order : OrderAdd) :
    encodeOrderAddEvent rest order =
      storeAll 0 ([0] :: orderAddParts order) (blankMessage rest) := by
  simp only [orderAddParts, storeAll, length_encodeInt, length_encodeTicker, List.length_singleton]
  rfl

lemma encodeOrderCancelEvent_eq (cancel : OrderCancel) :
    encodeOrderCancelEvent rest cancel =
      storeAll 0 ([1] :: orderCancelParts cancel) (blankMessage rest) := by
  simp only [orderCancelParts, storeAll, length_encodeInt, List.length_singleton]
  rfl

lemma encodeTradeEvent_eq (trade : Trade) :
    encodeTradeEvent rest trade =
      storeAll 0 ([2] :: tradeParts trade) (blankMessage rest) := by
  simp only [tradeParts, storeAll, length_encodeInt, length_encodeTicker, List.length_singleton]
  rfl

lemma length_blankMessage : (blankMessage rest).length = wireMarketDataMessageSize := by
  unfold blankMessage
  rw [List.length_append, List.length_replicate, List.length_ofFn]
  rfl

/-- A record that was stored behind a type byte: the message keeps its size, its first byte is the
type and its payload starts with the record. -/
lemma storeAll_blank (code : UInt8) {format : List Member} {parts : List (List UInt8)}
    (hsizes : SizesMatch format parts) (hroom : calcsize format < wireMarketDataMessageSize) :
    ∃ padding, storeAll 0 ([code] :: parts) (blankMessage rest) =
        code :: (parts.flatten ++ padding) ∧
      (code :: (parts.flatten ++ padding)).length = wireMarketDataMessageSize := by
  have hlength : ([code] :: parts).flatten.length = 1 + calcsize format := by
    rw [List.flatten_cons, List.length_append, hsizes.length_flatten, List.length_singleton]
  have hfits : 0 + ([code] :: parts).flatten.length ≤ (blankMessage rest).length := by
    rw [length_blankMessage, hlength]
    omega
  refine ⟨(blankMessage rest).drop (1 + calcsize format), ?_, ?_⟩
  · rw [storeAll_eq hfits, hlength, Nat.zero_add]
    rfl
  · rw [List.length_cons, List.length_append, hsizes.length_flatten, List.length_drop,
      length_blankMessage]
    omega

end Stores

/-! ## Market data is read as it was meant -/

/-- What the tools should make of an event. -/
def feedMessageOf : MarketEvent → Tools.FeedMessage
  | .orderAdd order => .orderAdd order.orderId order.userId (Tools.textOf order.ticker.chars)
      order.side order.price order.volume
  | .orderCancel cancel =>
    .orderCancel cancel.orderId cancel.userId (Tools.textOf cancel.ticker.chars)
  | .trade trade => .trade trade.makerId trade.takerId trade.makerOrderId trade.takerOrderId
      (Tools.textOf trade.ticker.chars) trade.takerSide trade.executionPrice trade.volume

/-- The ticker of an event. -/
def MarketEvent.ticker : MarketEvent → Ticker
  | .orderAdd order => order.ticker
  | .orderCancel cancel => cancel.ticker
  | .trade t => t.ticker

/-- What the tools make of an event if they read its ticker as a text. -/
def feedMessageWith (text : List Char) : MarketEvent → Tools.FeedMessage
  | .orderAdd order =>
    .orderAdd order.orderId order.userId text order.side order.price order.volume
  | .orderCancel cancel => .orderCancel cancel.orderId cancel.userId text
  | .trade trade => .trade trade.makerId trade.takerId trade.makerOrderId trade.takerOrderId text
      trade.takerSide trade.executionPrice trade.volume

lemma feedMessageOf_eq (event : MarketEvent) :
    feedMessageOf event = feedMessageWith (Tools.textOf event.ticker.chars) event := by
  cases event <;> rfl

/-- The numbers of an event are 64-bit integers. -/
def MarketEvent.InWords : MarketEvent → Prop
  | .orderAdd order => SignedWord.InRange 64 order.orderId ∧ SignedWord.InRange 64 order.userId ∧
      SignedWord.InRange 64 order.price ∧ SignedWord.InRange 64 order.volume
  | .orderCancel cancel => SignedWord.InRange 64 cancel.orderId ∧
      SignedWord.InRange 64 cancel.userId
  | .trade t => SignedWord.InRange 64 t.makerId ∧ SignedWord.InRange 64 t.takerId ∧
      SignedWord.InRange 64 t.makerOrderId ∧ SignedWord.InRange 64 t.takerOrderId ∧
      SignedWord.InRange 64 t.executionPrice ∧ SignedWord.InRange 64 t.volume

/-- The numbers of an event are 64-bit integers and its ticker is NUL-free ASCII. -/
def MarketEvent.Encodable : MarketEvent → Prop
  | .orderAdd order => SignedWord.InRange 64 order.orderId ∧ SignedWord.InRange 64 order.userId ∧
      order.ticker.IsAscii ∧ SignedWord.InRange 64 order.price ∧
      SignedWord.InRange 64 order.volume
  | .orderCancel cancel => SignedWord.InRange 64 cancel.orderId ∧
      SignedWord.InRange 64 cancel.userId ∧ cancel.ticker.IsAscii
  | .trade t => SignedWord.InRange 64 t.makerId ∧ SignedWord.InRange 64 t.takerId ∧
      SignedWord.InRange 64 t.makerOrderId ∧ SignedWord.InRange 64 t.takerOrderId ∧
      t.ticker.IsAscii ∧ SignedWord.InRange 64 t.executionPrice ∧
      SignedWord.InRange 64 t.volume

lemma MarketEvent.encodable_iff {event : MarketEvent} :
    event.Encodable ↔ event.InWords ∧ event.ticker.IsAscii := by
  cases event <;> simp only [Encodable, InWords, ticker] <;> tauto

/-- The tools expect messages of the size that they have. -/
lemma marketDataMessageSize_eq : wireMarketDataMessageSize = Tools.marketDataMessageSize := by
  decide

/-- The tools read the bytes of a ticker without NULs. -/
lemma decodeTicker_encodeTicker {ticker : Ticker} (h : ∀ b ∈ ticker.chars, b ≠ 0) :
    Tools.decodeTicker (encodeTicker ticker) = Tools.decodeAscii ticker.chars := by
  unfold Tools.decodeTicker
  rw [encodeTicker_eq_padded, cString_padded h]

/-- The tools read the side. -/
lemma decodeSide_encodeSide (side : Side) : Tools.decodeSide (leNat [encodeSide side]) = side := by
  cases side <;> rfl

lemma unpackMember_int64 {z : ℤ} (h : SignedWord.InRange 64 z) :
    unpackMember .int64 (encodeInt 8 z) = .int z :=
  congrArg Value.int (decodeInt_encodeInt h)

section Events

variable (rest : Fin (wireMarketDataMessageSize - (1 + wireOrderAddSize)) → UInt8)

/-- The tools decode the event of an add, up to its ticker. -/
lemma decodeMarketData_orderAdd {order : OrderAdd} (h : (MarketEvent.orderAdd order).InWords) :
    (encodeOrderAddEvent rest order).length = wireMarketDataMessageSize ∧
      Tools.decodeMarketData (encodeOrderAddEvent rest order) =
        (Tools.decodeTicker (encodeTicker order.ticker)).map
          fun text => feedMessageWith text (.orderAdd order) := by
  obtain ⟨hid, huser, hprice, hvolume⟩ := h
  have hsizes := sizesMatch_orderAdd order
  obtain ⟨padding, hstored, hlength⟩ := storeAll_blank rest 0 hsizes (by decide)
  have hunpack := hsizes.unpack_take padding
  have hvalues : List.zipWith unpackMember Tools.orderAddFormat (orderAddParts order) =
      [.int order.orderId, .int order.userId, .bytes (encodeTicker order.ticker),
        .int (leNat [encodeSide order.side]), .int order.price, .int order.volume] := by
    rw [Tools.orderAddFormat_eq, ← unpackMember_int64 hid, ← unpackMember_int64 huser,
      ← unpackMember_int64 hprice, ← unpackMember_int64 hvolume]
    rfl
  rw [encodeOrderAddEvent_eq, hstored]
  refine ⟨hlength, ?_⟩
  unfold Tools.decodeMarketData
  rw [if_neg (not_not.mpr (hlength.trans marketDataMessageSize_eq))]
  simp only [List.headD_cons, List.drop_succ_cons, List.drop_zero, if_true, hunpack, hvalues,
    decodeSide_encodeSide]
  rcases Tools.decodeTicker (encodeTicker order.ticker) with exc | text <;> rfl

/-- The tools decode the event of a cancel, up to its ticker. -/
lemma decodeMarketData_orderCancel {cancel : OrderCancel}
    (h : (MarketEvent.orderCancel cancel).InWords) :
    (encodeOrderCancelEvent rest cancel).length = wireMarketDataMessageSize ∧
      Tools.decodeMarketData (encodeOrderCancelEvent rest cancel) =
        (Tools.decodeTicker (encodeTicker cancel.ticker)).map
          fun text => feedMessageWith text (.orderCancel cancel) := by
  obtain ⟨hid, huser⟩ := h
  have hsizes := sizesMatch_orderCancel cancel
  obtain ⟨padding, hstored, hlength⟩ := storeAll_blank rest 1 hsizes (by decide)
  have hunpack := hsizes.unpack_take padding
  have hvalues : List.zipWith unpackMember Tools.orderCancelFormat (orderCancelParts cancel) =
      [.int cancel.orderId, .int cancel.userId, .bytes (encodeTicker cancel.ticker)] := by
    rw [Tools.orderCancelFormat_eq, ← unpackMember_int64 hid, ← unpackMember_int64 huser]
    rfl
  rw [encodeOrderCancelEvent_eq, hstored]
  refine ⟨hlength, ?_⟩
  unfold Tools.decodeMarketData
  rw [if_neg (not_not.mpr (hlength.trans marketDataMessageSize_eq))]
  simp only [List.headD_cons, List.drop_succ_cons, List.drop_zero, if_true, hunpack, hvalues]
  rcases Tools.decodeTicker (encodeTicker cancel.ticker) with exc | text <;> rfl

/-- The tools decode the event of a trade, up to its ticker. -/
lemma decodeMarketData_trade {t : Trade} (h : (MarketEvent.trade t).InWords) :
    (encodeTradeEvent rest t).length = wireMarketDataMessageSize ∧
      Tools.decodeMarketData (encodeTradeEvent rest t) =
        (Tools.decodeTicker (encodeTicker t.ticker)).map
          fun text => feedMessageWith text (.trade t) := by
  obtain ⟨hmaker, htaker, hmakerOrder, htakerOrder, hprice, hvolume⟩ := h
  have hsizes := sizesMatch_trade t
  obtain ⟨padding, hstored, hlength⟩ := storeAll_blank rest 2 hsizes (by decide)
  have hunpack := hsizes.unpack_take padding
  have hvalues : List.zipWith unpackMember Tools.tradeEventFormat (tradeParts t) =
      [.int t.makerId, .int t.takerId, .int t.makerOrderId, .int t.takerOrderId,
        .bytes (encodeTicker t.ticker), .int (leNat [encodeSide t.takerSide]),
        .int t.executionPrice, .int t.volume] := by
    rw [Tools.tradeEventFormat_eq, ← unpackMember_int64 hmaker, ← unpackMember_int64 htaker,
      ← unpackMember_int64 hmakerOrder, ← unpackMember_int64 htakerOrder,
      ← unpackMember_int64 hprice, ← unpackMember_int64 hvolume]
    rfl
  have hcode : (2 : UInt8) ≠ 0 ∧ (2 : UInt8) ≠ 1 := by decide
  rw [encodeTradeEvent_eq, hstored]
  refine ⟨hlength, ?_⟩
  unfold Tools.decodeMarketData
  rw [if_neg (not_not.mpr (hlength.trans marketDataMessageSize_eq))]
  simp only [List.headD_cons, List.drop_succ_cons, List.drop_zero, hcode, if_false, if_true,
    hunpack, hvalues, decodeSide_encodeSide]
  rcases Tools.decodeTicker (encodeTicker t.ticker) with exc | text <;> rfl

/-- The tools decode an event, up to its ticker. -/
lemma decodeMarketData_of_inWords {event : MarketEvent} (h : event.InWords) :
    (encodeEvent rest event).length = wireMarketDataMessageSize ∧
      Tools.decodeMarketData (encodeEvent rest event) =
        (Tools.decodeTicker (encodeTicker event.ticker)).map
          fun text => feedMessageWith text event := by
  cases event with
  | orderAdd order => exact decodeMarketData_orderAdd rest h
  | orderCancel cancel => exact decodeMarketData_orderCancel rest h
  | trade t => exact decodeMarketData_trade rest h

/-- The tools decode an event as it was meant. -/
theorem decodeMarketData_encodeEvent {event : MarketEvent} (h : event.Encodable) :
    (encodeEvent rest event).length = wireMarketDataMessageSize ∧
      Tools.decodeMarketData (encodeEvent rest event) = .ok (feedMessageOf event) := by
  obtain ⟨hwords, hascii⟩ := MarketEvent.encodable_iff.mp h
  obtain ⟨hlength, hdecode⟩ := decodeMarketData_of_inWords rest hwords
  refine ⟨hlength, ?_⟩
  rw [hdecode, decodeTicker_encodeTicker fun b hb => (hascii b hb).1,
    Tools.decodeAscii_of_ascii fun b hb => (hascii b hb).2, feedMessageOf_eq]
  rfl

/-- The tools cannot decode an event whose ticker is not ASCII. -/
theorem decodeMarketData_of_not_ascii {event : MarketEvent} (h : event.InWords)
    (hnul : ∀ b ∈ event.ticker.chars, b ≠ 0) (hascii : ∃ b ∈ event.ticker.chars, 128 ≤ b) :
    (encodeEvent rest event).length = wireMarketDataMessageSize ∧
      Tools.decodeMarketData (encodeEvent rest event) = .error .unicodeDecodeError := by
  obtain ⟨hlength, hdecode⟩ := decodeMarketData_of_inWords rest h
  refine ⟨hlength, ?_⟩
  rw [hdecode, decodeTicker_encodeTicker hnul, Tools.decodeAscii_of_not_ascii hascii]
  rfl

/-- A cancel for the ticker of the one byte 255. -/
example : Tools.decodeMarketData
    (encodeEvent (fun _ => 0) (.orderCancel ⟨1, 1, [255], by decide⟩)) =
      .error .unicodeDecodeError := rfl

end Events

/-! ## Any frame -/

/-- The event that is published for a command. -/
def InboundCommand.event : InboundCommand → MarketEvent
  | .add order => .orderAdd order
  | .cancel request => .orderCancel request

lemma inRange_int64At {off : ℕ} {m : List UInt8} (h : off + 8 ≤ m.length) :
    SignedWord.InRange 64 (int64At off m) := by
  have hrange := inRange_decodeInt (slice off 8 m)
  rw [length_slice h] at hrange
  exact hrange

/-- A ticker field with a NUL after ASCII bytes holds an ASCII ticker. -/
lemma decodeTicker_of_nul {field text tail : List UInt8} (hlength : field.length = 16)
    (hfield : field = text ++ 0 :: tail) (htext : ∀ b ∈ text, b < 128) :
    ∃ ticker, decodeTicker field = some ticker ∧ ticker.IsAscii := by
  have hstring : cString field = cString text := by
    rw [hfield, cString_append_zero]
  have hzero : 0 ∈ field := by
    rw [hfield]
    exact List.mem_append_right _ List.mem_cons_self
  have hshort : (cString field).length ≤ maxTickerLength := by
    have hlt := (length_cString_lt_iff field).mpr hzero
    rw [hlength] at hlt
    exact Nat.lt_succ_iff.mp hlt
  refine ⟨⟨cString field, hshort⟩, dif_pos hshort, ?_⟩
  intro b hb
  refine ⟨ne_zero_of_mem_cString hb, htext b ?_⟩
  rw [show (⟨cString field, hshort⟩ : Ticker).chars = cString text from hstring] at hb
  exact (List.takeWhile_sublist _).subset hb

/-- The ticker of a command is read from its field of the frame. -/
lemma decodeTicker_of_decode {frame : List UInt8} {cmd : InboundCommand}
    (h : decodeInboundMessage frame = some cmd) :
    decodeTicker (slice 17 16 frame) = some cmd.ticker := by
  unfold decodeInboundMessage at h
  split_ifs at h
  · obtain ⟨order, horder, rfl⟩ := Option.map_eq_some_iff.mp h
    obtain ⟨ticker, hticker, rfl⟩ := Option.map_eq_some_iff.mp horder
    exact hticker
  · obtain ⟨cancel, hcancel, rfl⟩ := Option.map_eq_some_iff.mp h
    obtain ⟨ticker, hticker, rfl⟩ := Option.map_eq_some_iff.mp hcancel
    exact hticker

/-- The ticker of a command that was decoded has no NUL. -/
lemma ne_zero_of_decode {frame : List UInt8} {cmd : InboundCommand}
    (h : decodeInboundMessage frame = some cmd) : ∀ b ∈ cmd.ticker.chars, b ≠ 0 := by
  intro b hb
  have hticker := decodeTicker_of_decode h
  unfold decodeTicker at hticker
  split_ifs at hticker
  rw [← Option.some.inj hticker] at hb
  exact ne_zero_of_mem_cString hb

/-- The numbers of a command that was decoded are 64-bit integers. -/
lemma inWords_of_decode {frame : List UInt8} {cmd : InboundCommand}
    (hlength : frame.length = inboundWireMessageSize)
    (h : decodeInboundMessage frame = some cmd) : cmd.event.InWords := by
  have hsize : frame.length = 50 := hlength
  have hword : ∀ off ≤ 42, SignedWord.InRange 64 (int64At off frame) := by
    intro off hoff
    exact inRange_int64At (by omega)
  unfold decodeInboundMessage at h
  split_ifs at h
  · obtain ⟨order, horder, rfl⟩ := Option.map_eq_some_iff.mp h
    obtain ⟨ticker, -, rfl⟩ := Option.map_eq_some_iff.mp horder
    exact ⟨hword 1 (by decide), hword 9 (by decide), hword 34 (by decide), hword 42 (by decide)⟩
  · obtain ⟨cancel, hcancel, rfl⟩ := Option.map_eq_some_iff.mp h
    obtain ⟨ticker, -, rfl⟩ := Option.map_eq_some_iff.mp hcancel
    exact ⟨hword 1 (by decide), hword 9 (by decide)⟩

lemma InboundCommand.ticker_event (cmd : InboundCommand) : cmd.event.ticker = cmd.ticker := by
  cases cmd <;> rfl

/-- A frame of the right size whose ticker field has a NUL after ASCII bytes is decoded, and the
event of the command can be encoded. -/
lemma decodeInboundMessage_of_nul {frame text tail : List UInt8}
    (hlength : frame.length = inboundWireMessageSize)
    (hfield : slice 17 16 frame = text ++ 0 :: tail) (htext : ∀ b ∈ text, b < 128) :
    ∃ cmd, decodeInboundMessage frame = some cmd ∧ cmd.event.Encodable := by
  have hsize : frame.length = 50 := hlength
  have hslice : (slice 17 16 frame).length = 16 := length_slice (by omega)
  obtain ⟨ticker, hticker, hascii⟩ := decodeTicker_of_nul hslice hfield htext
  have hadd : decodeTicker (WireOrderAdd.load 1 frame).ticker = some ticker := hticker
  have hcancel : decodeTicker (WireOrderCancel.load 1 frame).ticker = some ticker := hticker
  obtain ⟨cmd, hcmd⟩ : ∃ cmd, decodeInboundMessage frame = some cmd := by
    unfold decodeInboundMessage decodeOrderAdd decodeOrderCancel
    by_cases htype : byteAt 0 frame = 0
    · rw [if_pos htype, hadd]
      exact ⟨_, rfl⟩
    · rw [if_neg htype, hcancel]
      exact ⟨_, rfl⟩
  refine ⟨cmd, hcmd, MarketEvent.encodable_iff.mpr ⟨inWords_of_decode hlength hcmd, ?_⟩⟩
  obtain rfl := Option.some.inj (hticker.symm.trans (decodeTicker_of_decode hcmd))
  rw [cmd.ticker_event]
  exact hascii

/-! ## Agreement -/

/-- Every NUL-free ASCII text of at most 15 characters is the text of a ticker. -/
lemma exists_ticker_of_text {text : List Char}
    (htext : ∀ ch ∈ text, 0 < ch.toNat ∧ ch.toNat < 128) (hlength : text.length ≤ 15) :
    ∃ ticker : Ticker, Tools.textOf ticker.chars = text ∧ ticker.IsAscii := by
  have hshort : (text.map fun ch => UInt8.ofNat ch.toNat).length ≤ maxTickerLength := by
    rw [List.length_map]
    exact hlength
  refine ⟨⟨_, hshort⟩, Tools.textOf_bytes fun ch hch => (htext ch hch).2, ?_⟩
  intro b hb
  obtain ⟨ch, hch, rfl⟩ := List.mem_map.mp hb
  obtain ⟨hpos, hlt⟩ := htext ch hch
  have hbyte : (UInt8.ofNat ch.toNat).toNat = ch.toNat := by
    simp
    omega
  refine ⟨fun hzero => ?_, ?_⟩
  · rw [hzero] at hbyte
    exact absurd hbyte (by simpa using hpos.ne)
  · rw [UInt8.lt_iff_toNat_lt, hbyte]
    exact hlt

/-- The codecs of the exchange and of the tools agree in both directions.

What the tools encode for 64-bit fields and a NUL-free ASCII text of at most 15 characters, the
exchange decodes into a command with exactly these fields.  What the exchange encodes for such
fields, 66 bytes whatever the bytes hold that it does not write, the tools decode into exactly
these fields.  And a frame that no encoder would write, with any type, side and padding, is decoded
into a command as long as its ticker field has a NUL after ASCII bytes, and the tools read that
command from its event. -/
theorem codecs_agree (rest : Fin (wireMarketDataMessageSize - (1 + wireOrderAddSize)) → UInt8) :
    (∀ text : List Char, (∀ ch ∈ text, 0 < ch.toNat ∧ ch.toNat < 128) → text.length ≤ 15 →
      ∀ orderId userId price volume : ℤ, SignedWord.InRange 64 orderId →
      SignedWord.InRange 64 userId → SignedWord.InRange 64 price →
      SignedWord.InRange 64 volume → ∀ side : Side,
      ∃ ticker : Ticker, Tools.textOf ticker.chars = text ∧
        (∃ message, Tools.encodeOrderAdd orderId userId text (sideNumber side) price volume =
            .ok message ∧ message.length = inboundWireMessageSize ∧
          decodeInboundMessage message =
            some (.add ⟨orderId, userId, ticker, side, price, volume⟩)) ∧
        ∃ message, Tools.encodeOrderCancel orderId userId text = .ok message ∧
          message.length = inboundWireMessageSize ∧
          decodeInboundMessage message = some (.cancel ⟨orderId, userId, ticker⟩)) ∧
    (∀ event : MarketEvent, event.Encodable →
      (encodeEvent rest event).length = wireMarketDataMessageSize ∧
      Tools.decodeMarketData (encodeEvent rest event) = .ok (feedMessageOf event)) ∧
    ∀ frame text tail : List UInt8, frame.length = inboundWireMessageSize →
      slice 17 wireTickerSize frame = text ++ 0 :: tail → (∀ b ∈ text, b < 128) →
      ∃ cmd, decodeInboundMessage frame = some cmd ∧
        Tools.decodeMarketData (encodeEvent rest cmd.event) = .ok (feedMessageOf cmd.event) := by
  refine ⟨?_, ?_, ?_⟩
  · intro text htext hlength orderId userId price volume hid huser hprice hvolume side
    obtain ⟨ticker, rfl, hascii⟩ := exists_ticker_of_text htext hlength
    refine ⟨ticker, rfl, ?_, ?_⟩
    · exact decode_encodeOrderAdd hascii hid huser side hprice hvolume
    · exact decode_encodeOrderCancel hascii hid huser
  · intro event hevent
    exact decodeMarketData_encodeEvent rest hevent
  · intro frame text tail hlength hfield htext
    obtain ⟨cmd, hdecoded, hencodable⟩ := decodeInboundMessage_of_nul hlength hfield htext
    exact ⟨cmd, hdecoded, (decodeMarketData_encodeEvent rest hencodable).2⟩

end ToyExchange
