import ToyExchange.Tools.FeedMirror
import ToyExchange.Tools.ListenerProgram

/-!
# Commands the exchange ignores

The matching-engine thread publishes every add and every cancel, whether or not the router acted
on it, and the listener does what the events say.  So a command that the exchange ignores can
change what the listener shows: a cancel by someone else drops the order, an add without positive
volume or for an unlisted ticker replaces the order with its id.

`levels_unchanged_iff` says exactly when it does not, for the program that gets the datagram of the
event.  If the ticker of the command is not ASCII, the datagram cannot be decoded, and nothing is
applied (`decodeMarketData_of_not_ascii`).  Otherwise the listener replaces what it has under the id
of the command by what the command announces (`announced`).  That changes no level of a listed
ticker exactly when the two are the same, or when both are negligible besides the other open orders:
of an unlisted ticker, or without volume at a price where another order stands
(`Book.levels_apply_iff`).
-/

namespace ToyExchange

/-- The command changes no book of the router and causes no trade. -/
def Ignored [PriceSum] (r : MatchingEngineRouter) (cmd : InboundCommand) : Prop :=
  (∀ i s, ((r.step cmd).1.engines i).levels s = (r.engines i).levels s) ∧ (r.step cmd).2 = []

/-- The command has come in as a message. -/
def InboundCommand.Received (cmd : InboundCommand) : Prop :=
  ∃ message : List UInt8, message.length = inboundWireMessageSize ∧
    decodeInboundMessage message = some cmd

namespace Tools

/-- One side of the levels. -/
def Book.levelsOf (b : Book) (ticker : List Char) : Side → Dict ℤ ℤ
  | .buy => (b.levels ticker).1
  | .sell => (b.levels ticker).2

lemma Book.levelsOf_ofOrderBook (b : OrderBook) (ticker : Ticker) (s : Side) :
    (ofOrderBook b).levelsOf (textOf ticker.chars) s = b.levelsOf ticker s := by
  cases s with
  | buy => exact congrArg Prod.fst (levels_ofOrderBook b ticker)
  | sell => exact congrArg Prod.snd (levels_ofOrderBook b ticker)

/-- The listener shows the volumes of the books of every listed ticker. -/
def Book.Shows (b : Book) (r : MatchingEngineRouter) : Prop :=
  ∀ ticker ∈ ToyExchange.instruments, ∀ s price,
    (b.levelsOf (textOf ticker.chars) s).get price = r.depth ticker s price

/-- The id a command is about, and the order it announces under it. -/
def announced : InboundCommand → ℤ × Option BookOrder
  | .add order => (order.orderId, some (.ofOpenOrder (.ofAdd order)))
  | .cancel request => (request.orderId, none)

namespace BookOrder

/-- Where the order stands: the ticker, the side and the price. -/
def place (x : BookOrder) : List Char × Side × ℤ := (x.ticker, x.side, x.price)

/-- The order does not show besides the others: its ticker is not listed, or it has no volume and
another order stands at its place. -/
def Negligible (others : List BookOrder) (x : BookOrder) : Prop :=
  x.ticker ∉ instruments ∨ (x.volume = 0 ∧ ∃ y ∈ others, y.place = x.place)

end BookOrder

/-- The command announces what the listener already has under its id, or both what it has and what
is announced are negligible besides the other open orders. -/
def Quiet (b : Book) (cmd : InboundCommand) : Prop :=
  b.openOrders.get (announced cmd).1 = (announced cmd).2 ∨
    (∀ x, b.openOrders.get (announced cmd).1 = some x →
      x.Negligible (b.openOrders.pop (announced cmd).1).values) ∧
    ∀ y, (announced cmd).2 = some y → y.Negligible (b.openOrders.pop (announced cmd).1).values

/-! ## What is shown -/

/-- The volume shown at a place. -/
def shown (orders : List BookOrder) (place : List Char × Side × ℤ) : Option ℤ :=
  Dict.sumAt (orders.map fun x => (x.place, x.volume)) place

lemma shown_cons (x : BookOrder) (orders : List BookOrder) (place : List Char × Side × ℤ) :
    shown (x :: orders) place =
      if x.place = place then some (x.volume + (shown orders place).getD 0)
        else shown orders place :=
  rfl

lemma shown_perm {orders orders' : List BookOrder} (h : orders.Perm orders')
    (place : List Char × Side × ℤ) : shown orders place = shown orders' place :=
  Dict.sumAt_perm (h.map _) place

/-- What the levels have at a price is the sum over the open orders there. -/
lemma Book.get_levelsOf (b : Book) (ticker : List Char) (s : Side) (price : ℤ) :
    (b.levelsOf ticker s).get price = shown b.openOrders.values (ticker, s, price) := by
  let side (books : Dict ℤ ℤ × Dict ℤ ℤ) : Dict ℤ ℤ :=
    match s with
    | .buy => books.1
    | .sell => books.2
  have hturn : ∀ books x, (side (addLevel ticker books x)).get price =
      if x.place = (ticker, s, price) then some (((side books).get price).getD 0 + x.volume)
        else (side books).get price := by
    intro books x
    obtain ⟨xt, xs, xp, xv⟩ := x
    unfold addLevel BookOrder.place
    by_cases hticker : xt = ticker
    · cases xs <;> cases s <;> simp [side, hticker, Dict.get_addTo]
    · simp [hticker]
  have hfold := Dict.view_foldl (addLevel ticker) (fun books => (side books).get price)
    (fun x => (x.place, x.volume)) hturn b.openOrders.values (.empty, .empty)
  have hempty : (side (.empty, .empty)).get price = none := by
    cases s <;> rfl
  have hlevels : b.levelsOf ticker s = side (b.levels ticker) := by
    cases s <;> rfl
  rw [hlevels]
  refine hfold.trans ?_
  rw [hempty]
  unfold shown
  cases Dict.sumAt (b.openOrders.values.map fun x => (x.place, x.volume)) (ticker, s, price) with
  | none => rfl
  | some v => exact congrArg some (zero_add v)

/-- Something is shown where an order stands. -/
lemma shown_ne_none_iff {orders : List BookOrder} {place : List Char × Side × ℤ} :
    shown orders place ≠ none ↔ ∃ y ∈ orders, y.place = place := by
  induction orders with
  | nil => simp [shown]
  | cons y orders ih =>
    rw [shown_cons, List.exists_mem_cons_iff, ← ih]
    by_cases h : y.place = place
    · rw [if_pos h]
      exact iff_of_true (Option.some_ne_none _) (Or.inl h)
    · rw [if_neg h]
      exact (or_iff_right h).symm

/-- An order changes nothing that is shown of the listed tickers exactly when it is negligible. -/
lemma shown_cons_eq_iff {orders : List BookOrder} {x : BookOrder} :
    (∀ place, place.1 ∈ instruments → shown (x :: orders) place = shown orders place) ↔
      x.Negligible orders := by
  constructor
  · intro h
    by_cases hlisted : x.ticker ∈ instruments
    · have hplace := h x.place hlisted
      rw [shown_cons, if_pos rfl] at hplace
      cases hv : shown orders x.place with
      | none =>
        rw [hv] at hplace
        cases hplace
      | some v =>
        have hother : shown orders x.place ≠ none := by
          rw [hv]
          exact Option.some_ne_none v
        rw [hv, Option.getD_some, Option.some.injEq] at hplace
        exact Or.inr ⟨by omega, shown_ne_none_iff.mp hother⟩
    · exact Or.inl hlisted
  · intro h place hticker
    rw [shown_cons]
    split_ifs with hplace
    · subst hplace
      obtain ⟨hzero, hother⟩ := h.resolve_left (not_not.mpr hticker)
      obtain ⟨v, hv⟩ := Option.ne_none_iff_exists'.mp (shown_ne_none_iff.mpr hother)
      rw [hv, hzero, zero_add, Option.getD_some]
    · rfl

/-- Replacing one order by another among others, when it changes nothing that is shown. -/
lemma shown_replace_eq_iff {orders : List BookOrder} {x y : BookOrder} :
    (∀ place, place.1 ∈ instruments → shown (y :: orders) place = shown (x :: orders) place) ↔
      x = y ∨ (x.Negligible orders ∧ y.Negligible orders) := by
  constructor
  · intro h
    by_cases hplace : x.place = y.place
    · by_cases hlisted : x.ticker ∈ instruments
      · -- at their common place only the volumes can differ
        have hshown := h x.place hlisted
        rw [shown_cons, shown_cons, if_pos hplace.symm, if_pos rfl, Option.some.injEq] at hshown
        left
        obtain ⟨xt, xs, xp, xv⟩ := x
        obtain ⟨yt, ys, yp, yv⟩ := y
        simp only [BookOrder.place, Prod.mk.injEq] at hplace
        obtain ⟨rfl, rfl, rfl⟩ := hplace
        simpa using hshown.symm
      · have hticker : x.ticker = y.ticker := congrArg Prod.fst hplace
        exact Or.inr ⟨Or.inl hlisted, Or.inl (hticker ▸ hlisted)⟩
    · -- each of them stands alone at its own place and must show nothing there
      refine Or.inr ⟨shown_cons_eq_iff.mp fun place hticker => ?_,
        shown_cons_eq_iff.mp fun place hticker => ?_⟩
      · by_cases hx : x.place = place
        · have hshown := h place hticker
          rw [shown_cons y, if_neg fun hy => hplace (hx.trans hy.symm)] at hshown
          exact hshown.symm
        · rw [shown_cons, if_neg hx]
      · by_cases hy : y.place = place
        · have hshown := h place hticker
          rw [shown_cons x, if_neg fun hx => hplace (hx.trans hy.symm)] at hshown
          exact hshown
        · rw [shown_cons, if_neg hy]
  · rintro (rfl | ⟨hx, hy⟩) place hticker
    · rfl
    · rw [shown_cons_eq_iff.mpr hx place hticker, shown_cons_eq_iff.mpr hy place hticker]

/-- The places of the listed tickers: the listener knows the instruments of the exchange. -/
lemma forall_listed_iff {P : List Char × Side × ℤ → Prop} :
    (∀ ticker ∈ ToyExchange.instruments, ∀ s price, P (textOf ticker.chars, s, price)) ↔
      ∀ place, place.1 ∈ instruments → P place := by
  have hinstruments : instruments =
      ToyExchange.instruments.map fun ticker => textOf ticker.chars := by
    decide
  rw [hinstruments]
  constructor
  · rintro h ⟨text, s, price⟩ htext
    obtain ⟨ticker, hticker, rfl⟩ := List.mem_map.mp htext
    exact h ticker hticker s price
  · intro h ticker hticker s price
    exact h (_, s, price) (List.mem_map_of_mem hticker)

/-! ## What the listener shows after the event of a command -/

namespace Book

/-- The open orders: what the listener has under an id, and the others. -/
lemma values_perm (b : Book) (i : ℤ) :
    b.openOrders.values.Perm ((b.openOrders.get i).toList ++ (b.openOrders.pop i).values) := by
  cases hx : b.openOrders.get i with
  | none =>
    unfold Dict.values
    rw [Dict.entries_pop_of_get hx]
    exact List.Perm.refl _
  | some x => exact (Dict.entries_perm_of_get hx).map Prod.snd

/-- The open orders after the event of a command: what it announces, and the others. -/
lemma values_apply_perm (b : Book) (cmd : InboundCommand) :
    (b.apply (feedMessageOf cmd.event)).openOrders.values.Perm
      ((announced cmd).2.toList ++ (b.openOrders.pop (announced cmd).1).values) := by
  cases cmd with
  | add order =>
    exact (b.openOrders.entries_set_perm order.orderId (.ofOpenOrder (.ofAdd order))).map Prod.snd
  | cancel request => exact List.Perm.refl _

/-- The event of a command changes no level of the listed tickers exactly when it is quiet. -/
lemma levels_apply_iff (b : Book) (cmd : InboundCommand) :
    (∀ ticker ∈ ToyExchange.instruments, ∀ s price,
      ((b.apply (feedMessageOf cmd.event)).levelsOf (textOf ticker.chars) s).get price =
        (b.levelsOf (textOf ticker.chars) s).get price) ↔ Quiet b cmd := by
  simp only [get_levelsOf, shown_perm (b.values_apply_perm cmd),
    shown_perm (b.values_perm (announced cmd).1)]
  rw [forall_listed_iff (P := fun place => shown _ place = shown _ place)]
  unfold Quiet
  cases hx : b.openOrders.get (announced cmd).1 with
  | none =>
    cases hy : (announced cmd).2 with
    | none => simp
    | some y => simpa using shown_cons_eq_iff
  | some x =>
    cases hy : (announced cmd).2 with
    | none => simpa [eq_comm] using shown_cons_eq_iff
    | some y => simpa using shown_replace_eq_iff

end Book

/-! ## What the listener gets -/

/-- The messages of the turns are what the datagrams are decoded into. -/
lemma ListenerTurn.filterMap_message? (turns : List ListenerTurn) :
    turns.filterMap message? = (turns.filterMap datagram).filterMap fun data =>
      (decodeMarketData (data.take 4096)).toOption := by
  rw [List.filterMap_filterMap]
  refine List.filterMap_congr fun t _ => ?_
  unfold message? data
  cases t.datagram <;> rfl

/-- A run of the loop in which the datagram of one event arrives. -/
lemma Listener.loop_of_encodes (s : Listener) (interval : ℚ) {turns : List ListenerTurn}
    {event : MarketEvent} {result : Except WireError FeedMessage}
    (hturns : List.Forall₂ Encodes (turns.filterMap ListenerTurn.datagram) [event])
    (hresult : ∀ rest, (encodeEvent rest event).length = wireMarketDataMessageSize ∧
      decodeMarketData (encodeEvent rest event) = result) :
    ∃ s' printed, s.loop interval turns = .ok (s', printed) ∧
      s'.book = result.toOption.toList.foldl Book.apply s.book := by
  obtain ⟨s', printed, hloop, hbook, -⟩ := s.loop_spec interval turns
  refine ⟨s', printed, hloop, ?_⟩
  obtain ⟨data, datagrams, ⟨rest, rfl⟩, hnil, hdatagrams⟩ := List.forall₂_cons_right_iff.mp hturns
  obtain rfl := List.forall₂_nil_right_iff.mp hnil
  obtain ⟨hlength, hdecode⟩ := hresult rest
  rw [hbook, ListenerTurn.filterMap_message?, hdatagrams, List.filterMap_cons,
    take_of_length_eq hlength, hdecode]
  cases result <;> rfl

end Tools

section Commands

variable [PriceSum] {r : MatchingEngineRouter} {cmd : InboundCommand}

/-- A command without trades is published as its own event. -/
lemma publish_of_no_trades (h : (r.step cmd).2 = []) : r.publish cmd = [cmd.event] := by
  cases cmd with
  | add order =>
    have htrades : (r.onOrderAdd order).2 = [] := h
    rw [MatchingEngineRouter.publish, htrades]
    rfl
  | cancel request => rfl

/-- **When what the exchange ignores is ignored by the feed's consumers.**  Let a command that has
come in change no book and cause no trade, and let a listener, whatever it has seen before, get the
datagrams of the events that are published for it.  The listener goes on, and the levels that it has
for the listed tickers stay unchanged exactly when it cannot decode the event, because the ticker is
not ASCII, or the command is quiet: it announces what the listener already has under its id, or what
the listener has there and what is announced are negligible besides the other open orders. -/
theorem levels_unchanged_iff (r : MatchingEngineRouter) (cmd : InboundCommand)
    (hcmd : cmd.Received) (h : Ignored r cmd) (s : Tools.Listener) (interval : ℚ)
    (turns : List Tools.ListenerTurn)
    (hturns : List.Forall₂ Tools.Encodes (turns.filterMap Tools.ListenerTurn.datagram)
      (r.publish cmd)) :
    ∃ s' printed, s.loop interval turns = .ok (s', printed) ∧
      ((∀ ticker ∈ instruments, ∀ side price,
        (s'.book.levelsOf (Tools.textOf ticker.chars) side).get price =
          (s.book.levelsOf (Tools.textOf ticker.chars) side).get price) ↔
        (∃ b ∈ cmd.ticker.chars, 128 ≤ b) ∨ Tools.Quiet s.book cmd) := by
  obtain ⟨message, hlength, hdecode⟩ := hcmd
  have hwords := inWords_of_decode hlength hdecode
  have hnul := ne_zero_of_decode hdecode
  rw [← cmd.ticker_event] at hnul ⊢
  rw [publish_of_no_trades h.2] at hturns
  by_cases hascii : ∃ b ∈ cmd.event.ticker.chars, 128 ≤ b
  · -- the event cannot be decoded, so the book stays as it is
    obtain ⟨s', printed, hloop, hbook⟩ := s.loop_of_encodes interval hturns fun rest =>
      decodeMarketData_of_not_ascii rest hwords hnul hascii
    refine ⟨s', printed, hloop, iff_of_true (fun ticker _ side price => ?_) (Or.inl hascii)⟩
    rw [hbook]
    rfl
  · have hencodable : cmd.event.Encodable := by
      refine MarketEvent.encodable_iff.mpr ⟨hwords, fun b hb => ⟨hnul b hb, ?_⟩⟩
      exact UInt8.not_le.mp fun hle => hascii ⟨b, hb, hle⟩
    obtain ⟨s', printed, hloop, hbook⟩ := s.loop_of_encodes interval hturns fun rest =>
      decodeMarketData_encodeEvent rest hencodable
    refine ⟨s', printed, hloop, ?_⟩
    rw [or_iff_right hascii, hbook]
    exact s.book.levels_apply_iff cmd

end Commands

/-- A cancel for a ticker of ASCII characters can come in. -/
lemma received_cancel {orderId userId : ℤ} {ticker : Ticker} (hticker : ticker.IsAscii)
    (hid : SignedWord.InRange 64 orderId) (huser : SignedWord.InRange 64 userId) :
    (InboundCommand.cancel ⟨orderId, userId, ticker⟩).Received := by
  obtain ⟨message, -, hlength, hdecode⟩ := decode_encodeOrderCancel hticker hid huser
  exact ⟨message, hlength, hdecode⟩

/-- A cancel of an order nobody has added is ignored, and the listener ignores it too. -/
theorem levels_unchanged_unknown_cancel :
    let setup : List InboundCommand := [.add ⟨1, 1, .aapl, .buy, 100, 10⟩]
    let r := @MatchingEngineRouter.after PriceSum.int64 setup
    let cmd : InboundCommand := .cancel ⟨7, 1, .aapl⟩
    let s : Tools.Listener := ⟨.ofOrderBook (@listen PriceSum.int64 setup), 0⟩
    let turns : List Tools.ListenerTurn :=
      [⟨none, [], 1, []⟩, ⟨some (encodeEvent (fun _ => 0) cmd.event), [], 2, []⟩]
    @Ignored PriceSum.int64 r cmd ∧
      ∃ s' printed, s.loop 5 turns = .ok (s', printed) ∧
        ∀ ticker ∈ instruments, ∀ side price,
          (s'.book.levelsOf (Tools.textOf ticker.chars) side).get price =
            (s.book.levelsOf (Tools.textOf ticker.chars) side).get price := by
  intro setup r cmd s turns
  have hignored : @Ignored PriceSum.int64 r cmd := by
    refine ⟨fun i s => ?_, rfl⟩
    cases s <;> revert i <;> decide
  have hascii : Ticker.aapl.IsAscii := Tools.isAscii_of_mem_instruments _ (by decide)
  have hcmd : cmd.Received := received_cancel hascii (by decide) (by decide)
  obtain ⟨s', printed, hloop, hiff⟩ := @levels_unchanged_iff PriceSum.int64 r cmd hcmd hignored s 5
    turns (.cons ⟨_, rfl⟩ .nil)
  exact ⟨hignored, s', printed, hloop, hiff.mpr (Or.inr (Or.inl rfl))⟩

/-- A cancel by someone else is ignored by the exchange, but the listener drops the order: its
level of 10 at 100 is gone. -/
theorem feed_changed_by_ignored_cancel :
    let order : OrderAdd := ⟨1, 1, .aapl, .buy, 100, 10⟩
    let r := @MatchingEngineRouter.after PriceSum.int64 [.add order]
    let cmd : InboundCommand := .cancel ⟨1, 2, .aapl⟩
    let turn (event : MarketEvent) : Tools.ListenerTurn :=
      ⟨some (encodeEvent (fun _ => 0) event), [], 1, []⟩
    cmd.Received ∧ @Ignored PriceSum.int64 r cmd ∧
      @MatchingEngineRouter.publish PriceSum.int64 r cmd = [cmd.event] ∧
      ∃ s printed s' printed',
        (⟨.empty, 0⟩ : Tools.Listener).loop 5 [turn (.orderAdd order)] = .ok (s, printed) ∧
        s.book.Shows r ∧ s.loop 5 [turn cmd.event] = .ok (s', printed') ∧
        (s.book.levelsOf "AAPL".toList .buy).get 100 = some 10 ∧
        (s'.book.levelsOf "AAPL".toList .buy).get 100 = none := by
  intro order r cmd turn
  have hascii : Ticker.aapl.IsAscii := Tools.isAscii_of_mem_instruments _ (by decide)
  have hturn : ∀ event, List.Forall₂ Tools.Encodes
      ([turn event].filterMap Tools.ListenerTurn.datagram) [event] :=
    fun event => .cons ⟨_, rfl⟩ .nil
  have horder : (MarketEvent.orderAdd order).Encodable :=
    ⟨by decide, by decide, hascii, by decide, by decide⟩
  have hcancel : cmd.event.Encodable := ⟨by decide, by decide, hascii⟩
  obtain ⟨s, printed, hloop, hbook⟩ := Tools.Listener.loop_of_encodes ⟨.empty, 0⟩ 5
    (hturn (.orderAdd order)) fun rest => decodeMarketData_encodeEvent rest horder
  obtain ⟨s', printed', hloop', hbook'⟩ := s.loop_of_encodes 5 (hturn cmd.event)
    fun rest => decodeMarketData_encodeEvent rest hcancel
  refine ⟨received_cancel hascii (by decide) (by decide), ⟨fun i side => ?_, rfl⟩, rfl,
    s, printed, s', printed', hloop, fun ticker hticker side price => ?_, hloop', ?_, ?_⟩
  · cases side <;> revert i <;> decide
  · have hlisten : s.book = .ofOrderBook (@listen PriceSum.int64 [.add order]) :=
      hbook.trans (Tools.Book.apply_ofOrderBook .empty (.orderAdd order))
    rw [hlisten, Tools.Book.levelsOf_ofOrderBook]
    exact get_levelsOf_of_perm
      (fun i => (@MatchingEngineRouter.sound_engines PriceSum.int64 _ i).noEmptyLevel)
      (by decide) hticker side price
  · rw [hbook]
    decide +kernel
  · rw [hbook', hbook]
    decide +kernel

end ToyExchange
