import ToyExchange.Foundations.DecimalText
import ToyExchange.Tools.PrintedPrice

/-!
# The listener as a program

`OrderBook` says what the listener makes of events.  The program gets datagrams from a multicast
group, to which anyone can send: it decodes them, catches some exceptions, prints what it has seen
and, from time to time, the books.

Here is its loop on bytes, with everything it prints.  The clock and what the socket returns are
inputs.  The book of the program keeps tickers as texts, since it keeps what was decoded; it follows
`OrderBook` because the text of a ticker determines it (`apply_ofOrderBook`).

No datagram stops the loop: only `ValueError`s are caught, but unpacking never fails on a message
of the right size, so there are no others (`Listener.survives`).
-/

namespace ToyExchange

namespace Tools

open DecimalText (intText)

/-! ## The book -/

/-- An entry of `open_orders`. -/
structure BookOrder where
  ticker : List Char
  side : Side
  price : ℤ
  volume : ℤ

/-- The listener's `OrderBook`. -/
structure Book where
  openOrders : Dict ℤ BookOrder

namespace Book

/-- `__init__`. -/
def empty : Book := ⟨.empty⟩

/-- What a trade does to one of its two orders. -/
def shrink (b : Book) (orderId volume : ℤ) : Book :=
  match b.openOrders.get orderId with
  | none => b
  | some order =>
    if order.volume - volume ≤ 0 then ⟨b.openOrders.pop orderId⟩
    else ⟨b.openOrders.set orderId { order with volume := order.volume - volume }⟩

/-- `apply`. -/
def apply (b : Book) : FeedMessage → Book
  | .orderAdd orderId _ ticker side price volume =>
    ⟨b.openOrders.set orderId ⟨ticker, side, price, volume⟩⟩
  | .orderCancel orderId _ _ => ⟨b.openOrders.pop orderId⟩
  | .trade _ _ makerOrderId takerOrderId _ _ _ volume =>
    (b.shrink makerOrderId volume).shrink takerOrderId volume
  | .unknown _ => b

/-- One turn of the loop in `levels`. -/
def addLevel (ticker : List Char) (books : Dict ℤ ℤ × Dict ℤ ℤ) (order : BookOrder) :
    Dict ℤ ℤ × Dict ℤ ℤ :=
  if order.ticker ≠ ticker then books
  else
    match order.side with
    | .buy => (books.1.addTo order.price order.volume, books.2)
    | .sell => (books.1, books.2.addTo order.price order.volume)

/-- `levels`: the bids and the asks of a ticker. -/
def levels (b : Book) (ticker : List Char) : Dict ℤ ℤ × Dict ℤ ℤ :=
  b.openOrders.values.foldl (addLevel ticker) (.empty, .empty)

end Book

/-! ## What is printed -/

/-- The text in a field of some width, on the left. -/
def onLeft (width : ℕ) (text : List Char) : List Char :=
  text ++ List.replicate (width - text.length) ' '

/-- The text in a field of some width, on the right. -/
def onRight (width : ℕ) (text : List Char) : List Char :=
  List.replicate (width - text.length) ' ' ++ text

/-- The name of a side. -/
def sideText : Side → List Char
  | .buy => "Buy".toList
  | .sell => "Sell".toList

/-- `log_event` at a time of the clock. -/
def logEvent (ts : List Char) (event : FeedMessage) : List Char :=
  '[' :: ts ++ "] ".toList ++
    match event with
    | .orderAdd orderId userId ticker side price volume =>
      onLeft 5 ticker ++ " OrderAdd    id=".toList ++ onLeft 6 (intText orderId) ++
        " user=".toList ++ onLeft 4 (intText userId) ++ ' ' :: onLeft 4 (sideText side) ++
        ' ' :: onRight 10 (formatPrice price) ++ " x".toList ++ intText volume
    | .orderCancel orderId userId ticker =>
      onLeft 5 ticker ++ " OrderCancel id=".toList ++ onLeft 6 (intText orderId) ++
        " user=".toList ++ intText userId
    | .trade makerId takerId _ _ ticker takerSide price volume =>
      onLeft 5 ticker ++ " Trade       maker=".toList ++ onLeft 4 (intText makerId) ++
        " taker=".toList ++ onLeft 4 (intText takerId) ++ " taker".toList ++
        onLeft 5 (sideText takerSide) ++ ' ' :: onRight 10 (formatPrice price) ++
        " x".toList ++ intText volume
    | .unknown raw =>
      "unrecognized event: \x7b'type': 'Unknown', 'raw': '".toList ++ raw ++ "'\x7d".toList

/-- The line above and below a snapshot. -/
def rule : List Char := List.replicate 40 '='

/-- The line of one level. -/
def levelLine (label : String) (row : ℤ × ℤ) : List Char :=
  "        ".toList ++ label.toList ++ "  ".toList ++ onRight 10 (formatPrice row.1) ++
    "  x".toList ++ intText row.2

/-- The part of a snapshot for a ticker: the asks, a line if there are both, and the bids. -/
def ladder (ticker : List Char) (bids asks : List (ℤ × ℤ)) : List (List Char) :=
  ("-- ".toList ++ ticker ++ ' ' :: List.replicate (37 - ticker.length) '-') ::
    if bids = [] ∧ asks = [] then ["   (empty)".toList]
    else
      asks.map (levelLine "ask") ++
        (if bids ≠ [] ∧ asks ≠ [] then ["   ".toList ++ List.replicate 30 '-'] else []) ++
        bids.map (levelLine "bid")

/-- A snapshot with these ladders. -/
def snapshot (ts : List Char) (ladders : List (List Char)) : List (List Char) :=
  [rule, "orderbook @ ".toList ++ ts] ++ ladders ++ [rule]

/-- The loop over `sorted(levels, reverse=True)`. -/
def byPrice (levels : Dict ℤ ℤ) : List (ℤ × ℤ) :=
  (levels.keys.mergeSort fun a b => b ≤ a).map fun price => (price, (levels.get price).getD 0)

/-- `print_snapshot`. -/
def Book.printSnapshot (b : Book) (ts : List Char) : List (List Char) :=
  snapshot ts (instruments.flatMap fun ticker =>
    ladder ticker (byPrice (b.levels ticker).1) (byPrice (b.levels ticker).2))

/-! ## The loop -/

/-- The exceptions that `except ValueError` catches. -/
def WireError.isValueError : WireError → Bool
  | .structError | .assertionError => false
  | .unicodeEncodeError | .unicodeDecodeError | .tickerTooLong _ | .wrongSize _ _ => true

/-- What the program prints: a line that tells of an exception, or another one. -/
inductive Printed where
  | exception (exc : WireError)
  | line (text : List Char)

/-- The exception that a line tells of. -/
def Printed.exception? : Printed → Option WireError
  | .exception exc => some exc
  | .line _ => none

/-- What one turn of the loop gets from outside. -/
structure ListenerTurn where
  /-- The datagram that arrives, if any does in time. -/
  datagram : Option (List UInt8)
  /-- The time for `log_event`. -/
  logTime : List Char
  /-- `time.monotonic()`. -/
  now : ℚ
  /-- The time for `print_snapshot`. -/
  snapshotTime : List Char

/-- The variables of `main`. -/
structure Listener where
  book : Book
  lastSnapshot : ℚ

/-- What `recvfrom` returns. -/
def ListenerTurn.data (turn : ListenerTurn) : Option (List UInt8) :=
  turn.datagram.map (List.take 4096)

/-- Process what was received. -/
def Book.receive (b : Book) (ts : List Char) :
    Option (List UInt8) → Except WireError (Book × List Printed)
  | none => .ok (b, [])
  | some data =>
    match decodeMarketData data with
    | .error exc => if exc.isValueError then .ok (b, [.exception exc]) else .error exc
    | .ok event => .ok (b.apply event, [.line (logEvent ts event)])

namespace Listener

/-- One turn of the loop. -/
def turn (interval : ℚ) (s : Listener) (t : ListenerTurn) :
    Except WireError (Listener × List Printed) := do
  let (book, report) ← s.book.receive t.logTime t.data
  if 0 < interval ∧ interval ≤ double (t.now - s.lastSnapshot) then
    return (⟨book, t.now⟩, report ++ (book.printSnapshot t.snapshotTime).map .line)
  else return (⟨book, s.lastSnapshot⟩, report)

/-- The loop, until it is interrupted. -/
def loop (interval : ℚ) (s : Listener) :
    List ListenerTurn → Except WireError (Listener × List Printed)
  | [] => .ok (s, [])
  | t :: turns => do
    let (s', printed) ← s.turn interval t
    let (s'', rest) ← loop interval s' turns
    return (s'', printed ++ rest)

end Listener

/-! ## No datagram stops the loop -/

lemma isValueError_of_decodeAscii {raw : List UInt8} {exc : WireError}
    (h : decodeAscii raw = .error exc) : exc.isValueError := by
  induction raw with
  | nil => cases h
  | cons b raw ih =>
    rw [decodeAscii] at h
    split_ifs at h with hb
    · rcases hraw : decodeAscii raw with exc' | text
      · rw [hraw] at h
        obtain rfl : exc' = exc := Except.error.inj h
        exact ih hraw
      · rw [hraw] at h
        cases h
    · cases h
      rfl

/-- A message whose ticker is all that can be wrong with it. -/
lemma isValueError_of_ticker {raw : List UInt8} {message : List Char → FeedMessage}
    {exc : WireError}
    (h : (do let text ← decodeTicker raw; return message text : Except WireError FeedMessage) =
      .error exc) : exc.isValueError := by
  rcases htext : decodeTicker raw with exc' | text
  · rw [htext] at h
    obtain rfl : exc' = exc := Except.error.inj h
    exact isValueError_of_decodeAscii htext
  · rw [htext] at h
    cases h

/-- The payload of a message of the right size can be unpacked. -/
lemma unpack_payload {data : List UInt8} (hdata : data.length = marketDataMessageSize)
    (format : List StructFormat.Member)
    (hformat : StructFormat.calcsize format + 1 ≤ marketDataMessageSize) :
    StructFormat.unpack format ((data.drop 1).take (StructFormat.calcsize format)) =
      some (StructFormat.unpackAll format
        ((data.drop 1).take (StructFormat.calcsize format))) := by
  unfold StructFormat.unpack
  refine if_pos ?_
  rw [List.length_take, List.length_drop, hdata]
  omega

/-- Unpacking a message of the right size does not fail, so what fails is a `ValueError`. -/
lemma isValueError_of_decodeMarketData {data : List UInt8} {exc : WireError}
    (h : decodeMarketData data = .error exc) : exc.isValueError := by
  unfold decodeMarketData at h
  by_cases hsize : data.length = marketDataMessageSize
  · have hadd := unpack_payload hsize orderAddFormat (by decide)
    have hcancel := unpack_payload hsize orderCancelFormat (by decide)
    have htrade := unpack_payload hsize tradeEventFormat (by decide)
    rw [if_neg (not_not.mpr hsize)] at h
    dsimp only at h
    rw [hadd, hcancel, htrade, orderAddFormat_eq, orderCancelFormat_eq, tradeEventFormat_eq] at h
    split_ifs at h
    · exact isValueError_of_ticker h
    · exact isValueError_of_ticker h
    · exact isValueError_of_ticker h
  · rw [if_pos hsize] at h
    cases h
    rfl

/-- The message that was received, if it can be decoded. -/
def ListenerTurn.message? (t : ListenerTurn) : Option FeedMessage :=
  t.data.bind fun data => (decodeMarketData data).toOption

/-- The exception that decoding what was received raises, if it does. -/
def ListenerTurn.exception? (t : ListenerTurn) : Option WireError :=
  t.data.bind fun data =>
    match decodeMarketData data with
    | .error exc => some exc
    | .ok _ => none

/-- The messages of the later turns are applied after that of the first one. -/
lemma Book.foldl_messages_cons (b : Book) (t : ListenerTurn) (turns : List ListenerTurn) :
    ((t :: turns).filterMap ListenerTurn.message?).foldl apply b =
      (turns.filterMap ListenerTurn.message?).foldl apply (t.message?.toList.foldl apply b) := by
  rcases ht : t.message? with - | message
  · rw [List.filterMap_cons_none ht]
    rfl
  · rw [List.filterMap_cons_some ht]
    rfl

/-- What is received is applied if it can be decoded, and else only reported. -/
lemma Book.receive_spec (b : Book) (ts : List Char) (t : ListenerTurn) :
    ∃ report, b.receive ts t.data = .ok (t.message?.toList.foldl apply b, report) ∧
      report.filterMap Printed.exception? = t.exception?.toList := by
  unfold ListenerTurn.message? ListenerTurn.exception?
  rcases t.data with - | data
  · exact ⟨[], rfl, rfl⟩
  · rcases hdecode : decodeMarketData data with exc | event
    · refine ⟨[.exception exc], ?_, ?_⟩
      · rw [Book.receive, hdecode]
        simp only [isValueError_of_decodeMarketData hdecode, if_true, Option.bind_some, hdecode]
        rfl
      · simp only [Option.bind_some, hdecode]
        rfl
    · refine ⟨[.line (logEvent ts event)], ?_, ?_⟩
      · rw [Book.receive, hdecode]
        simp only [Option.bind_some, hdecode]
        rfl
      · simp only [Option.bind_some, hdecode]
        rfl

namespace Listener

/-- A snapshot tells of no exception. -/
lemma filterMap_exception?_line (texts : List (List Char)) :
    (texts.map Printed.line).filterMap Printed.exception? = [] := by
  rw [List.filterMap_map, List.filterMap_eq_nil_iff]
  exact fun _ _ => rfl

/-- One turn of the loop. -/
lemma turn_spec (interval : ℚ) (s : Listener) (t : ListenerTurn) :
    ∃ s' printed, s.turn interval t = .ok (s', printed) ∧
      s'.book = t.message?.toList.foldl Book.apply s.book ∧
      printed.filterMap Printed.exception? = t.exception?.toList := by
  obtain ⟨report, hreceive, hreport⟩ := s.book.receive_spec t.logTime t
  by_cases hdue : 0 < interval ∧ interval ≤ double (t.now - s.lastSnapshot)
  · let book := t.message?.toList.foldl Book.apply s.book
    refine ⟨⟨book, t.now⟩, report ++ (book.printSnapshot t.snapshotTime).map .line, ?_, rfl, ?_⟩
    · rw [turn, hreceive]
      exact if_pos hdue
    · rw [List.filterMap_append, hreport, filterMap_exception?_line, List.append_nil]
  · refine ⟨⟨_, s.lastSnapshot⟩, report, ?_, rfl, hreport⟩
    rw [turn, hreceive]
    exact if_neg hdue

/-- A run of the loop. -/
lemma loop_spec (interval : ℚ) (s : Listener) (turns : List ListenerTurn) :
    ∃ s' printed, s.loop interval turns = .ok (s', printed) ∧
      s'.book = (turns.filterMap ListenerTurn.message?).foldl Book.apply s.book ∧
      printed.filterMap Printed.exception? = turns.filterMap ListenerTurn.exception? := by
  induction turns generalizing s with
  | nil => exact ⟨s, [], rfl, rfl, rfl⟩
  | cons t turns ih =>
    obtain ⟨s', printed, hturn, hbook, hprinted⟩ := s.turn_spec interval t
    obtain ⟨s'', rest, hloop, hbook', hrest⟩ := ih s'
    refine ⟨s'', printed ++ rest, ?_, ?_, ?_⟩
    · rw [loop, hturn]
      change (do let (s'', rest) ← s'.loop interval turns; return (s'', printed ++ rest)) = _
      rw [hloop]
      rfl
    · rw [hbook', hbook, Book.foldl_messages_cons]
    · rw [List.filterMap_append, hprinted, hrest]
      rcases ht : t.exception? with - | exc
      · rw [List.filterMap_cons_none ht]
        rfl
      · rw [List.filterMap_cons_some ht]
        rfl

/-- **No datagram stops the listener.**  Whatever bytes of whatever length are sent to the group,
the loop goes on.  Each datagram that cannot be decoded is reported once, in order, and has no other
effect: the book is the one of a listener that does not get these datagrams. -/
theorem survives (interval : ℚ) (s : Listener) (turns : List ListenerTurn) :
    ∃ s' printed, s.loop interval turns = .ok (s', printed) ∧
      printed.filterMap Printed.exception? = turns.filterMap ListenerTurn.exception? ∧
      ∃ s'' printed', s.loop interval (turns.filter fun t => t.message?.isSome) =
        .ok (s'', printed') ∧ s''.book = s'.book := by
  obtain ⟨s', printed, hloop, hbook, hprinted⟩ := s.loop_spec interval turns
  obtain ⟨s'', printed', hloop', hbook', -⟩ :=
    s.loop_spec interval (turns.filter fun t => t.message?.isSome)
  refine ⟨s', printed, hloop, hprinted, s'', printed', hloop', ?_⟩
  rw [hbook', hbook, List.filterMap_filter]
  congr 1
  refine List.filterMap_congr fun t _ => ?_
  rcases ht : t.message? with - | message <;> simp

end Listener

/-! ## The book follows that of the events -/

/-- The bytes are the message of the event, with any bytes where the exchange writes none. -/
def Encodes (data : List UInt8) (event : MarketEvent) : Prop :=
  ∃ rest, data = encodeEvent rest event

/-- `recvfrom` returns the whole message of an event. -/
lemma take_of_length_eq {data : List UInt8} (h : data.length = wireMarketDataMessageSize) :
    data.take 4096 = data :=
  List.take_of_length_le (h.trans_le (by decide))

/-- The text of a byte string determines it. -/
lemma textOf_injective : Function.Injective textOf := by
  refine List.map_injective_iff.mpr fun b b' h => ?_
  have hchar : ∀ b : UInt8, (Char.ofNat b.toNat).toNat = b.toNat := by
    intro b
    have hlt := b.toNat_lt
    have hvalid : b.toNat.isValidChar := Or.inl (by omega)
    unfold Char.ofNat
    rw [dif_pos hvalid]
    rfl
  have hnat := congrArg Char.toNat h
  rw [hchar, hchar] at hnat
  exact UInt8.toNat_inj.mp hnat

/-- An order with its ticker as a text. -/
def BookOrder.ofOpenOrder (o : OpenOrder) : BookOrder :=
  ⟨textOf o.ticker.chars, o.side, o.price, o.volume⟩

namespace Book

/-- The book with the tickers as texts. -/
def ofOrderBook (b : OrderBook) : Book := ⟨b.openOrders.mapValues BookOrder.ofOpenOrder⟩

lemma shrink_ofOrderBook (b : OrderBook) (orderId volume : ℤ) :
    (ofOrderBook b).shrink orderId volume = ofOrderBook (b.shrink orderId volume) := by
  unfold shrink OrderBook.shrink ofOrderBook
  dsimp only
  rw [Dict.get_mapValues]
  rcases b.openOrders.get orderId with - | order
  · rfl
  · dsimp only [Option.map_some]
    rw [Dict.pop_mapValues]
    change (if order.volume - volume ≤ 0 then _ else _) = _
    split_ifs with hvolume
    · rfl
    · exact congrArg Book.mk (Dict.set_mapValues BookOrder.ofOpenOrder b.openOrders orderId
        { order with volume := order.volume - volume })

/-- Processing the message of an event is processing the event. -/
lemma apply_ofOrderBook (b : OrderBook) (event : MarketEvent) :
    (ofOrderBook b).apply (feedMessageOf event) = ofOrderBook (b.apply event) := by
  rcases event with order | cancel | trade
  · exact congrArg Book.mk (Dict.set_mapValues BookOrder.ofOpenOrder _ _ (OpenOrder.ofAdd order))
  · exact congrArg Book.mk (Dict.pop_mapValues BookOrder.ofOpenOrder _ _)
  · change ((ofOrderBook b).shrink _ _).shrink _ _ = _
    rw [shrink_ofOrderBook, shrink_ofOrderBook]
    rfl

/-- The levels of a ticker are those of its text. -/
lemma levels_ofOrderBook (b : OrderBook) (ticker : Ticker) :
    (ofOrderBook b).levels (textOf ticker.chars) = b.levels ticker := by
  have hlevel : ∀ books order, addLevel (textOf ticker.chars) books (.ofOpenOrder order) =
      OrderBook.addLevel ticker books order := by
    intro books order
    have hticker : (BookOrder.ofOpenOrder order).ticker = textOf ticker.chars ↔
        order.ticker = ticker := by
      rw [BookOrder.ofOpenOrder, textOf_injective.eq_iff, Ticker.mk.injEq]
    unfold addLevel OrderBook.addLevel
    by_cases h : order.ticker = ticker
    · rw [if_neg (not_not.mpr h), if_neg (not_not.mpr (hticker.mpr h))]
      rcases order with ⟨_, _ | _, _, _⟩ <;> rfl
    · rw [if_pos h, if_pos (fun htext => h (hticker.mp htext))]
  unfold levels OrderBook.levels ofOrderBook
  rw [Dict.values_mapValues, List.foldl_map]
  simp only [hlevel]

end Book

end Tools

end ToyExchange
