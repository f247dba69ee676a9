import ToyExchange.Exchange.EndToEnd
import ToyExchange.Tools.LossyFeed
import ToyExchange.Tools.OrderGenerator
import ToyExchange.Workers.VolumeRange

/-!
# The exchange between its tools

The order generator is a client of the exchange and the order book listener a consumer of its feed.
Here the whole chain is put together: what the generator sends comes in through a socket in chunks
of any size, is executed and published by the threads in any interleaving, and what is sent out may
be lost on the way to the listener.

What comes in as 64-bit fields and an ASCII ticker goes out as such (`encodable_of_mem_feedOf`), so
the listener can read every datagram unless some client sends a ticker that is not ASCII
(`ascii_clients_are_read`).  A session that has received a beginning of what a generator has sent
(`Carries`) has complete messages of its own only (`Carries.blocks`), hence generators never crash
the exchange, however many of them there are (`generators_never_crash`).  With one of them, the
commands executed are a beginning of its commands (`Carries.executed`), so all that is known about
well-behaved clients holds, and the listener shows orders that the generator has sent
(`generator_to_listener`).
-/

namespace ToyExchange

open Framing

/-! ## What is published can be read -/

section Encodable

variable [PriceSum] {cmds : List InboundCommand}

/-- The trades of commands that can be encoded can be encoded. -/
lemma encodable_of_mem_tradesOf (h : ∀ cmd ∈ cmds, cmd.event.Encodable) {t : Trade}
    (ht : t ∈ MatchingEngineRouter.tradesOf cmds) : (MarketEvent.trade t).Encodable := by
  obtain ⟨maker, taker, hmaker, htaker, hbetween⟩ :=
    MatchingEngineRouter.exists_between_of_mem_tradesOf ht
  obtain ⟨hmakerOrderId, hmakerId, hascii, hprice, -⟩ := h _ hmaker
  obtain ⟨htakerOrderId, htakerId, -⟩ := h _ htaker
  have hpos := MatchingEngineRouter.volume_pos_of_mem_tradesOf cmds t ht
  have hlt := MatchingEngineRouter.volume_lt_of_mem_tradesOf
    (volumeBelow_of_inRange fun order horder => (h _ horder).2.2.2.2) t ht
  refine ⟨hbetween.makerId ▸ hmakerId, hbetween.takerId ▸ htakerId,
    hbetween.makerOrderId ▸ hmakerOrderId, hbetween.takerOrderId ▸ htakerOrderId,
    hbetween.makerTicker ▸ hascii, hbetween.price ▸ hprice, ?_⟩
  exact SignedWord.inRange_of_nonneg hpos.le (by omega)

/-- The events of commands that can be encoded can be encoded. -/
lemma encodable_of_mem_feedOf (h : ∀ cmd ∈ cmds, cmd.event.Encodable) {event : MarketEvent}
    (hevent : event ∈ feedOf cmds) : event.Encodable := by
  rcases event with order | request | t
  · exact h _ (mem_of_mem_feedOf hevent rfl)
  · exact h _ (mem_of_mem_feedOf hevent rfl)
  · exact encodable_of_mem_tradesOf h (mem_tradesOf_of_mem_feedOf hevent)

end Encodable

namespace Exchange

/-- A complete message whose ticker field is ASCII decodes into a command that can be encoded. -/
lemma encodable_of_ascii {message : List UInt8} {cmd : InboundCommand}
    (hlength : message.length = inboundWireMessageSize)
    (hascii : ∀ b ∈ tickerField message, b < 128)
    (hdecode : decodeInboundMessage message = some cmd) : cmd.event.Encodable := by
  have hzero : 0 ∈ tickerField message := by
    by_contra hnot
    rw [(decodeInboundMessage_eq_none_iff hlength).mpr hnot] at hdecode
    cases hdecode
  obtain ⟨text, tail, hfield⟩ := List.append_of_mem hzero
  have htext : ∀ b ∈ text, b < 128 := by
    intro b hb
    refine hascii b ?_
    rw [hfield]
    exact List.mem_append_left _ hb
  obtain ⟨cmd', hdecode', hencodable⟩ := decodeInboundMessage_of_nul hlength hfield htext
  obtain rfl := Option.some.inj (hdecode'.symm.trans hdecode)
  exact hencodable

section Runs

variable [PriceSum] (c : Capacities) (inputs : List ExchangeInput)

/-- The datagrams are events of the commands executed, in their order. -/
lemma datagrams_sublist_feedOf :
    (datagrams c inputs).Sublist (feedOf (after c inputs).threads.inbound.popped) := by
  obtain ⟨actions, hthreads, hdatagrams⟩ := exists_actions c inputs
  rw [hdatagrams, hthreads]
  exact State.datagrams_sublist c actions

/-- If the commands of all complete messages can be encoded, then the datagrams can. -/
lemma encodable_of_mem_datagrams
    (h : ∀ session, ∀ message ∈ blocks inboundWireMessageSize ((sessions c inputs).bytes session),
      ∀ cmd, decodeInboundMessage message = some cmd → cmd.event.Encodable)
    {event : MarketEvent} (hevent : event ∈ datagrams c inputs) : event.Encodable := by
  refine encodable_of_mem_feedOf ?_ ((datagrams_sublist_feedOf c inputs).subset hevent)
  intro cmd hcmd
  obtain ⟨session, message, hmessage, hdecode⟩ := exists_message c inputs hcmd
  exact h session message hmessage cmd hdecode

/-- **The listener can read every datagram.**  If the ticker fields of all complete messages that
the clients have sent are ASCII, with whatever numbers, types and sides, then in every interleaving
the listener decodes each datagram into exactly the fields of its event, whatever the bytes hold
that the exchange does not write. -/
theorem ascii_clients_are_read
    (h : ∀ session, ∀ message ∈ blocks inboundWireMessageSize ((sessions c inputs).bytes session),
      ∀ b ∈ tickerField message, b < 128) :
    ∀ event ∈ datagrams c inputs, ∀ rest,
      Tools.decodeMarketData (encodeEvent rest event) = .ok (feedMessageOf event) := by
  intro event hevent rest
  refine (decodeMarketData_encodeEvent rest ?_).2
  refine encodable_of_mem_datagrams c inputs (fun session message hmessage cmd hdecode => ?_) hevent
  exact encodable_of_ascii (length_of_mem_blocks hmessage) (h session message hmessage) hdecode

end Runs

/-- What the generator sends first if it draws `sampleDraw`. -/
def sampleMessage : List UInt8 :=
  0 :: [1, 0, 0, 0, 0, 0, 0, 0] ++ List.replicate 8 0 ++ [0x41, 0x41, 0x50, 0x4c] ++
    List.replicate 12 0 ++ [0] ++ [0x80, 0x2b, 0x53, 0x0b, 0, 0, 0, 0] ++ [7, 0, 0, 0, 0, 0, 0, 0]

/-- A client sends that message; it is executed, and its event sent. -/
def oneOrder : List ExchangeInput :=
  [.gateway .roundOver, .gateway (.accept 5), .gateway (.readFrom 5),
    .gateway (.read (.data sampleMessage)), .gateway .roundOver, .matching, .matching,
    .marketData true, .marketData true]

lemma sessions_oneOrder : @sessions PriceSum.int64 .exchange oneOrder = Sessions.ofCalls
    [.accepted 5, .received 5 sampleMessage,
      .pushed 5 (.add ⟨1, 0, .aapl, .buy, 190000000, 7⟩)] := rfl

/-- There is one session. -/
lemma bytes_oneOrder (session : ℤ × ℕ) :
    (@sessions PriceSum.int64 .exchange oneOrder).bytes session =
      if session = (5, 1) then sampleMessage else [] := by
  rw [sessions_oneOrder]
  simp [Sessions.ofCalls, Sessions.observe, Sessions.current, Sessions.initial,
    Function.update_apply]

/-- The event of the order is sent and read. -/
theorem one_order_is_read :
    let event : MarketEvent := .orderAdd ⟨1, 0, .aapl, .buy, 190000000, 7⟩
    event ∈ @datagrams PriceSum.int64 .exchange oneOrder ∧
      ∀ rest, Tools.decodeMarketData (encodeEvent rest event) = .ok (feedMessageOf event) := by
  intro event
  have hevent : event ∈ @datagrams PriceSum.int64 .exchange oneOrder := by decide +kernel
  refine ⟨hevent, @ascii_clients_are_read PriceSum.int64 .exchange oneOrder ?_ event hevent⟩
  intro session message hmessage
  rw [bytes_oneOrder] at hmessage
  split_ifs at hmessage
  · have hmem : message ∈ [sampleMessage] := hmessage
    rw [List.mem_singleton.mp hmem]
    decide +kernel
  · exact absurd hmessage List.not_mem_nil

/-! ## Sessions of generators -/

/-- The bytes are a beginning of what a generator sends. -/
def Carries (bytes : List UInt8) : Prop :=
  ∃ iterations messages, iterations.length < 2 ^ 62 ∧
    Tools.Generator.initial.run iterations = .ok messages ∧ bytes <+: messages.flatten

variable {bytes : List UInt8}

/-- The generator has sent a session, of which the complete messages are a beginning. -/
lemma Carries.blocks (h : Carries bytes) :
    ∃ messages cmds, Tools.Session [] messages cmds ∧
      Framing.blocks inboundWireMessageSize bytes <+: messages := by
  obtain ⟨iterations, messages, hlength, hrun, hbytes⟩ := h
  obtain ⟨messages', cmds, hrun', -, hsession⟩ :=
    Tools.run_spec Tools.remembers_initial iterations (by rwa [List.length_nil, Nat.zero_add])
  obtain rfl := Except.ok.inj (hrun.symm.trans hrun')
  refine ⟨messages, cmds, hsession, ?_⟩
  have hmono := blocks_mono (n := inboundWireMessageSize) (by decide) hbytes
  rwa [blocks_flatten (by decide) hsession.framed] at hmono

/-- The complete messages decode into a beginning of the commands of the generator. -/
lemma Carries.commands (h : Carries bytes) :
    ∃ cmds, Mealy.Along remember Tools.Generated [] cmds ∧
      (Framing.blocks inboundWireMessageSize bytes).map decodeInboundMessage <+: cmds.map some := by
  obtain ⟨messages, cmds, hsession, hblocks⟩ := h.blocks
  exact ⟨cmds, hsession.generated, hsession.decoded ▸ hblocks.map _⟩

/-- Commands are generated one by one. -/
lemma generated_of_mem {cmds : List InboundCommand} {cmd : InboundCommand}
    (h : Mealy.Along remember Tools.Generated [] cmds) (hcmd : cmd ∈ cmds) :
    ∃ history, Tools.Generated history cmd := by
  obtain ⟨before, behind, rfl⟩ := List.append_of_mem hcmd
  exact ⟨_, (Mealy.along_append.mp h).2.1⟩

/-- A complete message decodes into a command that a generator sends. -/
lemma Carries.decode (h : Carries bytes) {message : List UInt8}
    (hmessage : message ∈ Framing.blocks inboundWireMessageSize bytes) :
    ∃ cmd history, decodeInboundMessage message = some cmd ∧ Tools.Generated history cmd := by
  obtain ⟨cmds, hgenerated, hdecoded⟩ := h.commands
  obtain ⟨cmd, hcmd, hdecode⟩ := List.mem_map.mp (hdecoded.subset (List.mem_map_of_mem hmessage))
  obtain ⟨history, hone⟩ := generated_of_mem hgenerated hcmd
  exact ⟨cmd, history, hdecode.symm, hone⟩

section Runs

variable [PriceSum]

/-- **Generators never crash the exchange.**  If what is received in each session is a beginning of
what some generator sends, then in every interleaving no exception leaves a thread. -/
theorem generators_never_crash (c : Capacities) (inputs : List ExchangeInput)
    (h : ∀ session, Carries ((sessions c inputs).bytes session)) :
    (∀ fd, (after c inputs).gateway.control ≠ .thrown fd) ∧
      (after c inputs).threads.terminated = false := by
  have hgood : ¬ ((∃ fd, (after c inputs).gateway.control = .thrown fd) ∨
      (after c inputs).threads.terminated = true) := by
    intro hcrash
    obtain ⟨session, message, hmessage, hbad⟩ := exists_bad_message hcrash
    obtain ⟨cmd, history, hdecode, hgenerated⟩ := (h session).decode hmessage
    rcases hbad with hticker | ⟨order, horder, huser⟩
    · rw [← decodeInboundMessage_eq_none_iff (length_of_mem_blocks hmessage), hdecode] at hticker
      cases hticker
    · obtain rfl := Option.some.inj (hdecode.symm.trans horder)
      have hzero : order.userId = 0 := hgenerated.userId
      rw [hzero] at huser
      exact absurd huser (by decide)
  rw [not_or, not_exists] at hgood
  exact ⟨hgood.1, Bool.eq_false_iff.mpr hgood.2⟩

end Runs

/-- At the reference price. -/
lemma drawPrice_reference : Tools.drawPrice 190 0 = 190000000 := by
  have hsum : (190 + 0 : ℚ) = ((190 : ℤ) : ℚ) := by norm_num
  have hproduct : ((190 : ℤ) : ℚ) * ((Tools.priceMultiplier : ℤ) : ℚ) = ((190000000 : ℤ) : ℚ) := by
    norm_num [Tools.priceMultiplier]
  unfold Tools.drawPrice
  rw [hsum, double_intCast (by decide), double_intCast (by decide), hproduct,
    double_intCast (by decide)]
  exact (Rounding.nearest_nearestEven _).eq_of_intCast

lemma run_sampleDraw :
    Tools.Generator.initial.run [⟨false, 0, Tools.sampleDraw⟩] = .ok [sampleMessage] := by
  have hlookup : Tools.referencePrices.lookup (Tools.instruments.get Tools.sampleDraw.ticker) =
      some 190 := by decide
  have hmessage : Tools.encodeOrderAdd 1 Tools.generatorUserId
      (Tools.instruments.get Tools.sampleDraw.ticker) (sideNumber Tools.sampleDraw.side) 190000000
      Tools.sampleDraw.volume = .ok sampleMessage := by rfl
  have hadd : Tools.randomOrderAdd 1 Tools.sampleDraw =
      .ok (sampleMessage, Tools.instruments.get Tools.sampleDraw.ticker) := by
    unfold Tools.randomOrderAdd
    dsimp only
    rw [hlookup]
    dsimp only
    rw [show Tools.sampleDraw.offset = 0 from rfl, drawPrice_reference, hmessage]
  simp [Tools.Generator.run, Tools.Generator.step, Tools.Generator.add, Tools.Generator.initial,
    hadd]

lemma carries_oneOrder (session : ℤ × ℕ) :
    Carries ((@sessions PriceSum.int64 .exchange oneOrder).bytes session) := by
  rw [bytes_oneOrder]
  split_ifs
  · refine ⟨_, _, ?_, run_sampleDraw, ?_⟩
    · decide
    · exact List.prefix_refl _
  · exact ⟨[], [], by decide, rfl, List.nil_prefix⟩

/-- The order of a generator does no harm. -/
theorem one_generator_never_crashes :
    (∀ session, Carries ((@sessions PriceSum.int64 .exchange oneOrder).bytes session)) ∧
      (@after PriceSum.int64 .exchange oneOrder).threads.terminated = false :=
  ⟨carries_oneOrder,
    (@generators_never_crash PriceSum.int64 .exchange oneOrder carries_oneOrder).2⟩

/-! ## From the generator to the listener -/

section Runs

variable [PriceSum] {c : Capacities} {inputs : List ExchangeInput} {session : ℤ × ℕ}

/-- If all commands are from the session of one generator, then what was executed is a beginning of
what it sends. -/
lemma Carries.executed (h : Carries ((sessions c inputs).bytes session))
    (honly : ∀ entry ∈ (sessions c inputs).queue, entry.1 = session) :
    Mealy.Along remember Tools.Generated [] (after c inputs).threads.inbound.popped := by
  obtain ⟨cmds, hgenerated, hdecoded⟩ := h.commands
  obtain ⟨held, -, hblocks⟩ := exists_held c inputs session
  have hcommands : (sessions c inputs).commands session <+: cmds := by
    rw [hblocks] at hdecoded
    exact (List.prefix_map_iff_of_injective (Option.some_injective _)).mp
      ((List.prefix_append _ _).trans hdecoded)
  have hall : (sessions c inputs).commands session = (sessions c inputs).queue.map Prod.snd := by
    rw [Sessions.commands, List.filter_eq_self.mpr fun entry hentry =>
      decide_eq_true (honly entry hentry)]
  rw [hall, ← pushed_eq_queue] at hcommands
  exact hgenerated.of_prefix ((BoundedFifo.popped_prefix _).trans hcommands)

/-- **From the generator to the listener.**  All commands come from one generator, through a socket
and the threads in any interleaving, and of the datagrams the listener receives some, in order.
Then it can decode each of them; every order it shows has a volume and was sent by the generator in
a complete message, with the same ticker, side and price and at least the volume shown; and every
order that was announced to it and rests is shown with at least the volume that rests. -/
theorem generator_to_listener (h : Carries ((sessions c inputs).bytes session))
    (honly : ∀ entry ∈ (sessions c inputs).queue, entry.1 = session)
    (received : List MarketEvent) (hreceived : received.Sublist (datagrams c inputs)) :
    (∀ event ∈ received, ∀ rest,
      Tools.decodeMarketData (encodeEvent rest event) = .ok (feedMessageOf event)) ∧
    ∀ orderId,
      (∀ o ∈ (OrderBook.empty.applyAll received).openOrders.get orderId, 0 < o.volume ∧
        ∃ message ∈ blocks inboundWireMessageSize ((sessions c inputs).bytes session), ∃ order,
          decodeInboundMessage message = some (.add order) ∧ order.orderId = orderId ∧
            o.Within (OpenOrder.ofAdd order)) ∧
      (Announced orderId received → ∀ o, (orderId, o) ∈
          (MatchingEngineRouter.after (after c inputs).threads.inbound.popped).openOrders →
        ∃ o' ∈ (OrderBook.empty.applyAll received).openOrders.get orderId, o.Within o') := by
  have hexecuted := h.executed honly
  have hwellBehaved := hexecuted.mono fun _ _ hcmd => hcmd.wellBehaved
  have hfeed := hreceived.trans (datagrams_sublist_feedOf c inputs)
  refine ⟨fun event hevent rest => ?_, fun orderId => ⟨fun o ho => ?_, fun hann o => ?_⟩⟩
  · refine (decodeMarketData_encodeEvent rest ?_).2
    refine encodable_of_mem_feedOf (fun cmd hcmd => ?_) (hfeed.subset hevent)
    obtain ⟨history, hgenerated⟩ := generated_of_mem hexecuted hcmd
    exact hgenerated.encodable
  · obtain ⟨hpos, order, horder, hid, hwithin⟩ := announced_of_shown hwellBehaved hfeed ho
    have hcmd := mem_of_mem_feedOf (hfeed.subset horder) rfl
    obtain ⟨session', hentry⟩ := exists_entry c inputs hcmd
    obtain rfl : session' = session := honly _ hentry
    obtain ⟨message, hmessage, hdecode⟩ := exists_message_of_entry c inputs hentry
    exact ⟨hpos, message, hmessage, order, hdecode, hid, hwithin⟩
  · exact shown_of_announced hwellBehaved hfeed hann

end Runs

/-- The listener shows the order that the generator has sent. -/
theorem generator_to_listener_one_order :
    let received : List MarketEvent := [.orderAdd ⟨1, 0, .aapl, .buy, 190000000, 7⟩]
    ⟨.aapl, .buy, 190000000, 7⟩ ∈ (OrderBook.empty.applyAll received).openOrders.get 1 ∧
      ∃ message ∈ blocks inboundWireMessageSize
        ((@sessions PriceSum.int64 .exchange oneOrder).bytes (5, 1)), ∃ order,
        decodeInboundMessage message = some (.add order) ∧ order.orderId = 1 := by
  intro received
  have honly : ∀ entry ∈ (@sessions PriceSum.int64 .exchange oneOrder).queue,
      entry.1 = (5, 1) := by
    intro entry hentry
    have hmem : entry ∈ [((5, 1), .add ⟨1, 0, .aapl, .buy, 190000000, 7⟩)] := hentry
    rw [List.mem_singleton.mp hmem]
  have hreceived : received.Sublist (@datagrams PriceSum.int64 .exchange oneOrder) := by
    decide +kernel
  have hshown : ⟨.aapl, .buy, 190000000, 7⟩ ∈
      (OrderBook.empty.applyAll received).openOrders.get 1 := by decide
  obtain ⟨-, message, hmessage, order, hdecode, hid, -⟩ :=
    ((@generator_to_listener PriceSum.int64 .exchange oneOrder (5, 1) (carries_oneOrder _) honly
      received hreceived).2 1).1 _ hshown
  exact ⟨hshown, message, hmessage, order, hdecode, hid⟩

end Exchange

end ToyExchange
