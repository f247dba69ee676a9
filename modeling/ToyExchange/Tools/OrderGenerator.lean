import ToyExchange.Engine.Doubles
import ToyExchange.Foundations.Dict
import ToyExchange.Tools.CodecAgreement
import ToyExchange.Tools.FeedMirror

/-!
# The order generator

The generator sends adds for fresh ids and cancels for orders it believes to be open, which are
those it has not cancelled: it never learns of trades.  What `random` returns is an input of the
model, and an exception an error.

It is the client that `WellBehaved` describes.  `Remembers` ties its dictionary to the commands sent
so far, and `step_spec` says what one iteration of its loop sends.  So every session of it decodes
into well-behaved commands, with no order cancelled twice or before it was added
(`generator_well_behaved`).
-/

namespace ToyExchange

namespace Tools

open Rounding

/-! ## The program -/

/-- `USER_ID`. -/
def generatorUserId : ℤ := 0

/-- `INSTRUMENTS` of the tools. -/
def instruments : List (List Char) :=
  ["AAPL".toList, "GOOG".toList, "MSFT".toList, "AMZN".toList]

/-- `PRICE_MULTIPLIER` of the tools. -/
def priceMultiplier : ℤ := 1000000

/-- `REFERENCE_PRICES`, in USD. -/
def referencePrices : List (List Char × ℚ) :=
  [("AAPL".toList, 190), ("GOOG".toList, 140), ("MSFT".toList, 410), ("AMZN".toList, 175)]

/-- What `random` returns for a new order. -/
structure Draw where
  ticker : Fin instruments.length
  side : Side
  /-- The distance from the reference price. -/
  offset : ℚ
  offset_le : |offset| ≤ 2
  volume : ℤ
  one_le_volume : 1 ≤ volume
  volume_le : volume ≤ 100

/-- The exceptions of the generator. -/
inductive GeneratorError where
  /-- There is no reference price. -/
  | keyError (ticker : List Char)
  | wire (error : WireError)

/-- The price of an order, computed in doubles. -/
def drawPrice (reference offset : ℚ) : ℤ :=
  nearestEven (double (double (reference + offset) * double priceMultiplier))

/-- `random_order_add`: the message and the ticker of an order. -/
def randomOrderAdd (orderId : ℤ) (draw : Draw) :
    Except GeneratorError (List UInt8 × List Char) :=
  let ticker := instruments.get draw.ticker
  match referencePrices.lookup ticker with
  | none => .error (.keyError ticker)
  | some reference =>
    match encodeOrderAdd orderId generatorUserId ticker (sideNumber draw.side)
        (drawPrice reference draw.offset) draw.volume with
    | .error e => .error (.wire e)
    | .ok message => .ok (message, ticker)

/-- The state of the loop in `main`. -/
structure Generator where
  /-- The tickers of the orders that were not cancelled, by order id. -/
  openOrders : Dict ℤ (List Char)
  nextOrderId : ℤ

/-- What `random` returns in one iteration. -/
structure Iteration where
  /-- The random number is below the probability of a cancel. -/
  cancels : Bool
  /-- Which open order is chosen, counted around the list of them. -/
  pick : ℕ
  draw : Draw

namespace Generator

/-- Before the loop. -/
def initial : Generator := ⟨.empty, 1⟩

/-- An iteration that sends an add. -/
def add (g : Generator) (draw : Draw) : Except GeneratorError (Generator × List UInt8) :=
  match randomOrderAdd g.nextOrderId draw with
  | .error e => .error e
  | .ok (message, ticker) =>
    .ok (⟨g.openOrders.set g.nextOrderId ticker, g.nextOrderId + 1⟩, message)

/-- An iteration that sends a cancel. -/
def cancel (g : Generator) (orderId : ℤ) (ticker : List Char) :
    Except GeneratorError (Generator × List UInt8) :=
  match encodeOrderCancel orderId generatorUserId ticker with
  | .error e => .error (.wire e)
  | .ok message => .ok ({ g with openOrders := g.openOrders.pop orderId }, message)

/-- One iteration of the loop: the message that is sent, and the new state. -/
def step (g : Generator) (i : Iteration) : Except GeneratorError (Generator × List UInt8) :=
  if i.cancels then
    match g.openOrders.entries[i.pick % g.openOrders.entries.length]? with
    | some (orderId, ticker) => g.cancel orderId ticker
    -- there are no open orders
    | none => g.add i.draw
  else g.add i.draw

/-- The messages that are sent in some iterations. -/
def run : Generator → List Iteration → Except GeneratorError (List (List UInt8))
  | _, [] => .ok []
  | g, i :: is =>
    match g.step i with
    | .error e => .error e
    | .ok (g', message) =>
      match run g' is with
      | .error e => .error e
      | .ok messages => .ok (message :: messages)

end Generator

/-! ## Prices and tickers -/

/-- The tools list the instruments of the exchange. -/
lemma instruments_eq : instruments = ToyExchange.instruments.map fun t => textOf t.chars := by
  decide

/-- A drawn ticker is listed. -/
lemma exists_ticker (draw : Draw) : ∃ ticker ∈ ToyExchange.instruments,
    instruments.get draw.ticker = textOf ticker.chars := by
  have hmem := List.get_mem instruments draw.ticker
  generalize instruments.get draw.ticker = text at hmem ⊢
  rw [instruments_eq, List.mem_map] at hmem
  obtain ⟨ticker, hticker, htext⟩ := hmem
  exact ⟨ticker, hticker, htext.symm⟩

lemma isAscii_of_mem_instruments : ∀ t ∈ ToyExchange.instruments, t.IsAscii := by
  unfold Ticker.IsAscii
  decide +kernel

/-- There is a plausible reference price for every instrument. -/
lemma exists_reference (draw : Draw) : ∃ reference : ℚ,
    referencePrices.lookup (instruments.get draw.ticker) = some reference ∧
      140 ≤ reference ∧ reference ≤ 410 := by
  have hmem := List.get_mem instruments draw.ticker
  generalize instruments.get draw.ticker = ticker at hmem ⊢
  simp only [instruments, List.mem_cons, List.not_mem_nil, or_false] at hmem
  rcases hmem with rfl | rfl | rfl | rfl
  · exact ⟨190, by decide, by norm_num, by norm_num⟩
  · exact ⟨140, by decide, by norm_num, by norm_num⟩
  · exact ⟨410, by decide, by norm_num, by norm_num⟩
  · exact ⟨175, by decide, by norm_num, by norm_num⟩

/-- Rounding changes a number of some size by less than a hundredth. -/
lemma double_near {x : ℚ} (h : 1 ≤ x) : 99 / 100 * x ≤ double x ∧ double x ≤ 101 / 100 * x := by
  have herror := abs_double_sub_le (x := x)
    (.inr (le_trans (by norm_num) (h.trans (le_abs_self x))))
  rw [doubleError_eq, abs_of_nonneg (by linarith : 0 ≤ x), abs_le] at herror
  constructor <;> linarith

/-- Prices are positive and fit into 64 bits. -/
lemma drawPrice_bounds {reference offset : ℚ} (hlow : 140 ≤ reference) (hhigh : reference ≤ 410)
    (hoffset : |offset| ≤ 2) :
    0 < drawPrice reference offset ∧ drawPrice reference offset < 2 ^ 32 := by
  obtain ⟨hmin, hmax⟩ := abs_le.mp hoffset
  have hscale : double priceMultiplier = 1000000 := by
    rw [double_intCast (by decide)]
    norm_num [priceMultiplier]
  have hsum := double_near (x := reference + offset) (by linarith)
  have hproduct := double_near (x := double (reference + offset) * double priceMultiplier)
    (by rw [hscale]; linarith)
  have hnear := abs_le.mp (nearest_nearestEven
    (double (double (reference + offset) * double priceMultiplier)))
  unfold drawPrice
  rw [hscale] at hproduct hnear ⊢
  constructor
  · have hpos : (0 : ℚ) < nearestEven (double (double (reference + offset) * 1000000)) := by
      linarith
    exact_mod_cast hpos
  · have hlt : (nearestEven (double (double (reference + offset) * 1000000)) : ℚ) < 2 ^ 32 := by
      linarith
    exact_mod_cast hlt

/-! ## What it sends -/

/-- No order is cancelled before it was added, or twice. -/
def CancelsOnce (history : List InboundCommand) : InboundCommand → Prop
  | .add _ => True
  | .cancel request => (∃ a ∈ addsOf history, a.orderId = request.orderId) ∧
      ∀ earlier, .cancel earlier ∈ history → earlier.orderId ≠ request.orderId

/-- A command that the generator sends. -/
structure Generated (history : List InboundCommand) (cmd : InboundCommand) : Prop where
  wellBehaved : WellBehaved history cmd
  cancelsOnce : CancelsOnce history cmd
  userId : cmd.userId = generatorUserId
  /-- The exchange can publish it. -/
  encodable : cmd.event.Encodable

/-- An order that the generator takes for open was added under its ticker and not cancelled. -/
structure Opened (history : List InboundCommand) (orderId : ℤ) (text : List Char)
    (ticker : Ticker) : Prop where
  listed : ticker ∈ ToyExchange.instruments
  text_eq : text = textOf ticker.chars
  positive : 0 < orderId
  added : ∃ a ∈ addsOf history, a.orderId = orderId
  unique : ∀ a ∈ addsOf history, a.orderId = orderId →
    a.userId = generatorUserId ∧ a.ticker = ticker
  uncancelled : ∀ request, .cancel request ∈ history → request.orderId ≠ orderId

/-- The state of the loop after the commands sent. -/
structure Remembers (history : List InboundCommand) (g : Generator) : Prop where
  next_pos : 0 < g.nextOrderId
  next_le : g.nextOrderId ≤ history.length + 1
  /-- Ids are given out in order. -/
  older : ∀ a ∈ addsOf history, a.orderId < g.nextOrderId
  cancelled : ∀ request, .cancel request ∈ history → request.orderId < g.nextOrderId
  opened : ∀ orderId text, (orderId, text) ∈ g.openOrders.entries →
    ∃ ticker, Opened history orderId text ticker

lemma remembers_initial : Remembers [] .initial where
  next_pos := by decide
  next_le := le_rfl
  older _ h := by cases h
  cancelled _ h := by cases h
  opened _ _ h := by cases h

section Step

variable {history : List InboundCommand} {g : Generator}

lemma Opened.orderId_lt {orderId : ℤ} {text : List Char} {ticker : Ticker}
    (h : Opened history orderId text ticker) (hr : Remembers history g) :
    orderId < g.nextOrderId := by
  obtain ⟨a, ha, rfl⟩ := h.added
  exact hr.older a ha

/-- An order stays open while others are added. -/
lemma Opened.add {orderId : ℤ} {text : List Char} {ticker : Ticker}
    (h : Opened history orderId text ticker) {order : OrderAdd} (hne : order.orderId ≠ orderId) :
    Opened (history ++ [.add order]) orderId text ticker where
  listed := h.listed
  text_eq := h.text_eq
  positive := h.positive
  added := by
    obtain ⟨a, ha, hid⟩ := h.added
    exact ⟨a, mem_addsOf.mpr (List.mem_append_left _ (mem_addsOf.mp ha)), hid⟩
  unique a ha hid := by
    rcases List.mem_append.mp (mem_addsOf.mp ha) with ha | ha
    · exact h.unique a (mem_addsOf.mpr ha) hid
    · obtain rfl := InboundCommand.add.inj (List.mem_singleton.mp ha)
      exact absurd hid hne
  uncancelled request hrequest := by
    rcases List.mem_append.mp hrequest with hrequest | hrequest
    · exact h.uncancelled request hrequest
    · cases List.mem_singleton.mp hrequest

/-- An order stays open while others are cancelled. -/
lemma Opened.cancel {orderId : ℤ} {text : List Char} {ticker : Ticker}
    (h : Opened history orderId text ticker) {request : OrderCancel}
    (hne : request.orderId ≠ orderId) :
    Opened (history ++ [.cancel request]) orderId text ticker where
  listed := h.listed
  text_eq := h.text_eq
  positive := h.positive
  added := by
    obtain ⟨a, ha, hid⟩ := h.added
    exact ⟨a, mem_addsOf.mpr (List.mem_append_left _ (mem_addsOf.mp ha)), hid⟩
  unique a ha hid := by
    rcases List.mem_append.mp (mem_addsOf.mp ha) with ha | ha
    · exact h.unique a (mem_addsOf.mpr ha) hid
    · cases List.mem_singleton.mp ha
  uncancelled earlier hearlier := by
    rcases List.mem_append.mp hearlier with hearlier | hearlier
    · exact h.uncancelled earlier hearlier
    · obtain rfl := InboundCommand.cancel.inj (List.mem_singleton.mp hearlier)
      exact hne

/-- An order of the generator with the next id is remembered as open. -/
lemma Remembers.add (h : Remembers history g) {order : OrderAdd}
    (hid : order.orderId = g.nextOrderId) (huser : order.userId = generatorUserId)
    (hticker : order.ticker ∈ ToyExchange.instruments) :
    Remembers (history ++ [.add order])
      ⟨g.openOrders.set g.nextOrderId (textOf order.ticker.chars), g.nextOrderId + 1⟩ where
  next_pos := by
    have hpos := h.next_pos
    dsimp only
    omega
  next_le := by
    have hle := h.next_le
    rw [List.length_append]
    push_cast
    exact Int.add_le_add_right hle 1
  older a ha := by
    dsimp only
    rcases List.mem_append.mp (mem_addsOf.mp ha) with ha | ha
    · exact Int.lt_add_one_of_le (h.older a (mem_addsOf.mpr ha)).le
    · obtain rfl := InboundCommand.add.inj (List.mem_singleton.mp ha)
      omega
  cancelled request hrequest := by
    dsimp only
    rcases List.mem_append.mp hrequest with hrequest | hrequest
    · exact Int.lt_add_one_of_le (h.cancelled request hrequest).le
    · cases List.mem_singleton.mp hrequest
  opened orderId text hopen := by
    rw [← (Dict.represents _).lookup, Dict.get_set, Function.update_apply] at hopen
    split_ifs at hopen with hnew
    · subst hnew
      refine ⟨order.ticker, hticker, (Option.some.inj hopen).symm, h.next_pos,
        ⟨order, mem_addsOf.mpr (List.mem_append_right _ (List.mem_singleton_self _)), hid⟩, ?_, ?_⟩
      · intro a ha hsame
        rcases List.mem_append.mp (mem_addsOf.mp ha) with ha | ha
        · exact absurd hsame (h.older a (mem_addsOf.mpr ha)).ne
        · obtain rfl := InboundCommand.add.inj (List.mem_singleton.mp ha)
          exact ⟨huser, rfl⟩
      · intro request hrequest
        rcases List.mem_append.mp hrequest with hrequest | hrequest
        · exact (h.cancelled request hrequest).ne
        · cases List.mem_singleton.mp hrequest
    · obtain ⟨ticker, hopened⟩ :=
        h.opened orderId text ((g.openOrders.represents.lookup orderId text).mp hopen)
      refine ⟨ticker, hopened.add ?_⟩
      rw [hid]
      exact fun heq => hnew heq.symm

/-- A cancelled order is forgotten. -/
lemma Remembers.cancel (h : Remembers history g) {request : OrderCancel}
    (hlt : request.orderId < g.nextOrderId) :
    Remembers (history ++ [.cancel request])
      { g with openOrders := g.openOrders.pop request.orderId } where
  next_pos := h.next_pos
  next_le := by
    have hle := h.next_le
    rw [List.length_append]
    push_cast
    exact hle.trans (Int.le_add_one le_rfl)
  older a ha := by
    rcases List.mem_append.mp (mem_addsOf.mp ha) with ha | ha
    · exact h.older a (mem_addsOf.mpr ha)
    · cases List.mem_singleton.mp ha
  cancelled earlier hearlier := by
    rcases List.mem_append.mp hearlier with hearlier | hearlier
    · exact h.cancelled earlier hearlier
    · obtain rfl := InboundCommand.cancel.inj (List.mem_singleton.mp hearlier)
      exact hlt
  opened orderId text hopen := by
    obtain ⟨hmem, hne⟩ := List.mem_filter.mp hopen
    obtain ⟨ticker, hopened⟩ := h.opened orderId text hmem
    exact ⟨ticker, hopened.cancel fun heq => of_decide_eq_true hne heq.symm⟩

/-- An iteration sends a message that decodes into a command of the generator, and remembers it. -/
def Sends (history : List InboundCommand)
    (result : Except GeneratorError (Generator × List UInt8)) : Prop :=
  ∃ g' message cmd, result = .ok (g', message) ∧ message.length = inboundWireMessageSize ∧
    decodeInboundMessage message = some cmd ∧ Generated history cmd ∧
    Remembers (history ++ [cmd]) g'

lemma Remembers.inRange (h : Remembers history g) (hroom : history.length + 1 < 2 ^ 62) {id : ℤ}
    (hpos : 0 < id) (hle : id ≤ g.nextOrderId) : SignedWord.InRange 64 id := by
  have hbound := h.next_le
  exact ⟨by omega, by omega⟩

/-- What an add sends. -/
lemma sends_add (h : Remembers history g) (hroom : history.length + 1 < 2 ^ 62) (draw : Draw) :
    Sends history (g.add draw) := by
  obtain ⟨reference, hlookup, hlow, hhigh⟩ := exists_reference draw
  obtain ⟨hpos, hlt⟩ := drawPrice_bounds hlow hhigh draw.offset_le
  obtain ⟨ticker, hticker, htext⟩ := exists_ticker draw
  have huser : SignedWord.InRange 64 generatorUserId := by decide
  have hprice : SignedWord.InRange 64 (drawPrice reference draw.offset) :=
    ⟨by omega, by omega⟩
  have hvolume : SignedWord.InRange 64 draw.volume := by
    have hmin := draw.one_le_volume
    have hmax := draw.volume_le
    exact ⟨by omega, by omega⟩
  have hascii := isAscii_of_mem_instruments ticker hticker
  have hid := h.inRange hroom h.next_pos le_rfl
  obtain ⟨message, hencode, hlength, hdecode⟩ :=
    decode_encodeOrderAdd hascii hid huser draw.side hprice hvolume
  have hadd : g.add draw = .ok (⟨g.openOrders.set g.nextOrderId (textOf ticker.chars),
      g.nextOrderId + 1⟩, message) := by
    unfold Generator.add randomOrderAdd
    dsimp only
    rw [hlookup, htext]
    dsimp only
    rw [hencode]
  refine ⟨_, message, _, hadd, hlength, hdecode, ⟨⟨hticker, draw.one_le_volume, ?_⟩, trivial, rfl,
    hid, huser, hascii, hprice, hvolume⟩, h.add rfl rfl hticker⟩
  exact fun a ha => (h.older a ha).ne

/-- What a cancel of an open order sends. -/
lemma sends_cancel (h : Remembers history g) (hroom : history.length + 1 < 2 ^ 62) {orderId : ℤ}
    {text : List Char} (hopen : (orderId, text) ∈ g.openOrders.entries) :
    Sends history (g.cancel orderId text) := by
  obtain ⟨ticker, hopened⟩ := h.opened orderId text hopen
  have hlt := hopened.orderId_lt h
  have huser : SignedWord.InRange 64 generatorUserId := by decide
  have hascii := isAscii_of_mem_instruments ticker hopened.listed
  have hid := h.inRange hroom hopened.positive hlt.le
  obtain ⟨message, hencode, hlength, hdecode⟩ := decode_encodeOrderCancel hascii hid huser
  have hcancel : g.cancel orderId text =
      .ok ({ g with openOrders := g.openOrders.pop orderId }, message) := by
    unfold Generator.cancel
    rw [hopened.text_eq, hencode]
  refine ⟨_, message, _, hcancel, hlength, hdecode,
    ⟨hopened.unique, ⟨hopened.added, hopened.uncancelled⟩, rfl, hid, huser, hascii⟩, h.cancel hlt⟩

/-- **One iteration.**  Whatever `random` returns, the generator raises nothing and sends one
message, which decodes into a command as it should be. -/
theorem step_spec (h : Remembers history g) (hroom : history.length + 1 < 2 ^ 62) (i : Iteration) :
    Sends history (g.step i) := by
  unfold Generator.step
  split_ifs
  · split
    · case _ orderId text hpick => exact sends_cancel h hroom (List.mem_of_getElem? hpick)
    · exact sends_add h hroom i.draw
  · exact sends_add h hroom i.draw

/-- What a session of the generator sends: frames that decode into its commands. -/
structure Session (history : List InboundCommand) (messages : List (List UInt8))
    (cmds : List InboundCommand) : Prop where
  framed : ∀ message ∈ messages, message.length = inboundWireMessageSize
  decoded : messages.map decodeInboundMessage = cmds.map some
  generated : Mealy.Along remember Generated history cmds

/-- Iterations send a session. -/
lemma run_spec (h : Remembers history g) (iterations : List Iteration)
    (hroom : history.length + iterations.length < 2 ^ 62) :
    ∃ messages cmds, g.run iterations = .ok messages ∧
      messages.length = iterations.length ∧ Session history messages cmds := by
  induction iterations generalizing history g with
  | nil => exact ⟨[], [], rfl, rfl, by simp, rfl, trivial⟩
  | cons i iterations ih =>
    rw [List.length_cons] at hroom
    obtain ⟨g', message, cmd, hstep, hlength, hdecode, hgenerated, hremembers⟩ :=
      step_spec h (by omega) i
    obtain ⟨messages, cmds, hrun, hcount, hsession⟩ := ih hremembers (by
      rw [List.length_append, List.length_singleton]
      omega)
    refine ⟨message :: messages, cmd :: cmds, ?_, ?_, ?_, ?_, ?_⟩
    · simp only [Generator.run, hstep, hrun]
    · rw [List.length_cons, List.length_cons, hcount]
    · exact List.forall_mem_cons.mpr ⟨hlength, hsession.framed⟩
    · rw [List.map_cons, List.map_cons, hdecode, hsession.decoded]
    · exact ⟨hgenerated, hsession.generated⟩

end Step

/-- **The generator is well behaved.**  Whatever `random` returns in its iterations, as long as
there are fewer than `2 ^ 62` of them, the generator raises no exception and sends one message in
each, of the size of a frame.  The messages decode into well-behaved commands of user 0, with no
order cancelled before it was added, or twice. -/
theorem generator_well_behaved (iterations : List Iteration)
    (hlength : iterations.length < 2 ^ 62) :
    ∃ messages cmds, Generator.initial.run iterations = .ok messages ∧
      messages.length = iterations.length ∧ Session [] messages cmds :=
  run_spec remembers_initial iterations (by simpa using hlength)

/-- Seven shares of `AAPL` at the reference price. -/
def sampleDraw : Draw where
  ticker := ⟨0, by decide⟩
  side := .buy
  offset := 0
  offset_le := abs_zero.trans_le zero_le_two
  volume := 7
  one_le_volume := by decide
  volume_le := by decide

/-- An add and its cancel. -/
theorem generator_well_behaved_two_iterations :
    ∃ messages cmds,
      Generator.initial.run [⟨false, 0, sampleDraw⟩, ⟨true, 0, sampleDraw⟩] = .ok messages ∧
      messages.length = 2 ∧ Session [] messages cmds :=
  generator_well_behaved _ (by decide)

end Tools

end ToyExchange
