import ToyExchange.Exchange.System
import ToyExchange.Engine.Provenance

/-!
# From bytes to accounts

What the clients send are bytes, what they get are trades on their accounts and datagrams about
them.  `System` has put the stages in between together; here their guarantees are composed.

The gateway turns the bytes of each session into commands (`FramedAt`), the commands of all sessions
go through one queue (`Coupled`), the engine executes a beginning of that queue as a sequential run
would (`InOrder`), and the accounts are those of the trades settled (`Accounted`).  Hence at every
point of every interleaving the accounts and the datagrams are explained by the bytes of the clients
(`bytes_to_accounts`), every settled trade by two complete messages
(`settled_trades_were_sent`), and an end of the process other than the ordered one by a message that
should not have been sent (`crash_needs_bad_message`).  After a shutdown that leaves the queues
empty nothing is missing (`orderly_exit_is_sequential`).
-/

namespace ToyExchange

open Framing

/-! ## The messages of a session -/

/-- At most one block is in hand. -/
lemma Gateway.length_due_le (g : Gateway) (fd : ℤ) : (g.due fd).length ≤ 1 := by
  unfold due
  split
  · split_ifs <;> simp
  · split_ifs <;> simp
  · simp

namespace Exchange

section Runs

variable [PriceSum] (c : Capacities) (inputs : List ExchangeInput)

/-- The threads of the exchange have made a run of their own. -/
lemma exists_actions : ∃ actions, (after c inputs).threads = State.after c actions ∧
    datagrams c inputs = (Mealy.run State.step (State.init c) actions).2 := by
  obtain ⟨actions, hrun⟩ := threads_refine c inputs
  exact ⟨actions, (congrArg Prod.fst hrun).symm, (congrArg Prod.snd hrun).symm⟩

/-- The inbound queue has the commands of the sessions. -/
lemma pushed_eq_queue :
    (after c inputs).threads.inbound.pushed = (sessions c inputs).queue.map Prod.snd := by
  rw [(coupled_after c inputs).pushed, sessions, queue_ofCalls]

/-- The commands of a session are its decoded messages, but for the one in hand at most. -/
lemma exists_held (session : ℤ × ℕ) : ∃ held : List (Option InboundCommand), held.length ≤ 1 ∧
    (blocks inboundWireMessageSize ((sessions c inputs).bytes session)).map decodeInboundMessage =
      ((sessions c inputs).commands session).map some ++ held := by
  obtain ⟨fd, k⟩ := session
  have hframed := framed_after c inputs fd
  by_cases hk : k = (sessions c inputs).generation fd
  · refine ⟨_, Gateway.length_due_le (after c inputs).gateway fd, ?_⟩
    rw [hk]
    exact hframed.decoded
  · refine ⟨[], Nat.zero_le _, ?_⟩
    rw [List.append_nil]
    exact hframed.earlier k hk

/-- A command on the queue is a complete message of its session. -/
lemma exists_message_of_entry {session : ℤ × ℕ} {cmd : InboundCommand}
    (h : (session, cmd) ∈ (sessions c inputs).queue) :
    ∃ message ∈ blocks inboundWireMessageSize ((sessions c inputs).bytes session),
      decodeInboundMessage message = some cmd := by
  have hcommand : cmd ∈ (sessions c inputs).commands session :=
    List.mem_map.mpr ⟨_, List.mem_filter.mpr ⟨h, decide_eq_true rfl⟩, rfl⟩
  obtain ⟨held, -, hdecoded⟩ := exists_held c inputs session
  have hmem : some cmd ∈ (blocks inboundWireMessageSize
      ((sessions c inputs).bytes session)).map decodeInboundMessage := by
    rw [hdecoded]
    exact List.mem_append_left _ (List.mem_map_of_mem hcommand)
  exact List.mem_map.mp hmem

/-- A command that was executed is on the queue. -/
lemma exists_entry {cmd : InboundCommand}
    (h : cmd ∈ (after c inputs).threads.inbound.popped) :
    ∃ session, (session, cmd) ∈ (sessions c inputs).queue := by
  have hpushed := (BoundedFifo.popped_prefix _).subset h
  rw [pushed_eq_queue] at hpushed
  obtain ⟨⟨session, cmd⟩, hentry, rfl⟩ := List.mem_map.mp hpushed
  exact ⟨session, hentry⟩

/-- A command that was executed is a complete message of some session. -/
lemma exists_message {cmd : InboundCommand}
    (h : cmd ∈ (after c inputs).threads.inbound.popped) :
    ∃ session, ∃ message ∈ blocks inboundWireMessageSize ((sessions c inputs).bytes session),
      decodeInboundMessage message = some cmd := by
  obtain ⟨session, hentry⟩ := exists_entry c inputs h
  exact ⟨session, exists_message_of_entry c inputs hentry⟩

/-- The trades that the inventory thread has taken are trades of the commands executed. -/
lemma popped_trades_of_executed :
    (after c inputs).threads.trades.popped <+:
      MatchingEngineRouter.tradesOf (after c inputs).threads.inbound.popped := by
  obtain ⟨actions, hthreads, -⟩ := exists_actions c inputs
  rw [hthreads]
  exact (BoundedFifo.popped_prefix _).trans ⟨_, (State.inOrder_after c actions).trades⟩

/-- A trade that the inventory thread has taken is between two orders that clients sent. -/
lemma exists_messages_of_trade {t : Trade} (h : t ∈ (after c inputs).threads.trades.popped) :
    ∃ maker taker, t.Between maker taker ∧ ∀ order ∈ [maker, taker], ∃ session, ∃ message ∈
      blocks inboundWireMessageSize ((sessions c inputs).bytes session),
      decodeInboundMessage message = some (.add order) := by
  have htrade := (popped_trades_of_executed c inputs).subset h
  obtain ⟨maker, taker, hmaker, htaker, hbetween⟩ :=
    MatchingEngineRouter.exists_between_of_mem_tradesOf htrade
  have hsent : ∀ order, .add order ∈ (after c inputs).threads.inbound.popped →
      ∃ session, ∃ message ∈ blocks inboundWireMessageSize ((sessions c inputs).bytes session),
        decodeInboundMessage message = some (.add order) := by
    intro order horder
    exact exists_message c inputs horder
  refine ⟨maker, taker, hbetween, ?_⟩
  intro order horder
  rcases List.mem_cons.mp horder with rfl | horder
  · exact hsent order hmaker
  · obtain rfl := List.mem_singleton.mp horder
    exact hsent order htaker

/-! ## The whole way -/

/-- **From bytes to accounts.**  At every point of every interleaving of the threads, whatever the
sockets return:

* the commands of each session are its complete messages, decoded and in order, but for one at most
  that is still in hand;
* the engine has executed a beginning of the queue, in which the sessions are interleaved;
* the trades settled are a beginning of the trades of a sequential run on what was executed, and the
  accounts are what settling them in order leads to;
* the datagrams sent are events of that run, in its order. -/
theorem bytes_to_accounts :
    (∀ session, ∃ held : List (Option InboundCommand), held.length ≤ 1 ∧
      (blocks inboundWireMessageSize ((sessions c inputs).bytes session)).map
        decodeInboundMessage = ((sessions c inputs).commands session).map some ++ held) ∧
    (after c inputs).threads.inbound.popped <+: (sessions c inputs).queue.map Prod.snd ∧
    (after c inputs).threads.settled.map Prod.fst <+:
      MatchingEngineRouter.tradesOf (after c inputs).threads.inbound.popped ∧
    (after c inputs).threads.registry =
      UserRegistry.fresh.settleAll (after c inputs).threads.settled ∧
    (datagrams c inputs).Sublist (feedOf (after c inputs).threads.inbound.popped) := by
  obtain ⟨actions, hthreads, hdatagrams⟩ := exists_actions c inputs
  refine ⟨exists_held c inputs, ?_, ?_, ?_, ?_⟩
  · rw [← pushed_eq_queue]
    exact BoundedFifo.popped_prefix _
  · refine List.IsPrefix.trans ?_ (popped_trades_of_executed c inputs)
    rw [hthreads]
    exact ⟨_, (State.inOrder_after c actions).settling⟩
  · rw [hthreads]
    exact (State.accounted_after actions).registry
  · rw [hdatagrams, hthreads]
    exact State.datagrams_sublist c actions

/-- **No trade that nobody asked for.**  Whatever the interleaving and whatever the sockets return:
each settled trade is between two orders, with the users, ids, ticker and sides that it names, at
the price of one and within the limit of the other, and each of the two was sent by a client as a
complete message. -/
theorem settled_trades_were_sent :
    ∀ x ∈ (after c inputs).threads.settled, ∃ maker taker, x.1.Between maker taker ∧
      ∀ order ∈ [maker, taker], ∃ session, ∃ message ∈
        blocks inboundWireMessageSize ((sessions c inputs).bytes session),
        decodeInboundMessage message = some (.add order) := by
  intro x hx
  obtain ⟨actions, hthreads, -⟩ := exists_actions c inputs
  apply exists_messages_of_trade c inputs
  rw [hthreads] at hx ⊢
  have hsettling := (State.inOrder_after c actions).settling
  rw [← hsettling]
  exact List.mem_append_left _ (List.mem_map_of_mem hx)

end Runs

/-- The bytes of an add at the price 100; its user has the id of the order. -/
def addMessage (side id volume : UInt8) : List UInt8 :=
  0 :: (id :: List.replicate 7 0) ++ (id :: List.replicate 7 0) ++
    ([0x41, 0x41, 0x50, 0x4c] ++ List.replicate 12 0) ++ [side] ++
    (100 :: List.replicate 7 0) ++ (volume :: List.replicate 7 0)

/-- One client sends an ask and a bid that crosses it; they are executed and settled, the events are
sent, and the exchange is shut down. -/
def twoOrders : List ExchangeInput :=
  List.flatten [
    [.gateway .roundOver, .gateway (.accept 5), .gateway (.readFrom 5),
      .gateway (.read (.data (addMessage 1 1 10))), .gateway .roundOver,
      .gateway (.read (.data (addMessage 0 2 4))), .gateway .roundOver,
      .gateway (.read .wouldBlock), .gateway .roundOver],
    List.replicate 12 .matching, List.replicate 6 (.marketData true),
    [.inventory, .inventory, .signal, .main, .main, .gateway .roundOver, .main, .main,
      .matching, .matching, .main, .main, .inventory, .inventory, .marketData true,
      .marketData true, .main, .main]]

/-- The trade of the two orders was sent. -/
theorem settled_trade_of_two_orders :
    ∃ x ∈ (@after PriceSum.int64 .exchange twoOrders).threads.settled,
      ∃ maker taker, x.1.Between maker taker := by
  have hlength : 0 < (@after PriceSum.int64 .exchange twoOrders).threads.settled.length := by
    decide +kernel
  obtain ⟨x, hx⟩ := List.exists_mem_of_length_pos hlength
  obtain ⟨maker, taker, hbetween, -⟩ :=
    @settled_trades_were_sent PriceSum.int64 .exchange twoOrders x hx
  exact ⟨x, hx, maker, taker, hbetween⟩

/-- An end of the process by an exception is explained by a message. -/
lemma exists_bad_message [PriceSum] {c : Capacities} {inputs : List ExchangeInput}
    (h : (∃ fd, (after c inputs).gateway.control = .thrown fd) ∨
      (after c inputs).threads.terminated = true) :
    ∃ session, ∃ message ∈
      blocks inboundWireMessageSize ((sessions c inputs).bytes session),
      0 ∉ tickerField message ∨
        ∃ order, decodeInboundMessage message = some (.add order) ∧
          UserRegistry.get order.userId = none := by
  rcases h with hthrown | hterm
  · obtain ⟨session, message, hmessage, hnone⟩ :=
      (Gateway.thrown_iff_exists_block (framed_after c inputs)).mp hthrown
    refine ⟨session, message, hmessage, .inl ?_⟩
    exact (decodeInboundMessage_eq_none_iff (length_of_mem_blocks hmessage)).mp hnone
  · obtain ⟨actions, hthreads, -⟩ := exists_actions c inputs
    rw [hthreads] at hterm
    obtain ⟨trade, hi, hget⟩ := State.cause_after c actions hterm
    have hpopped : trade ∈ (after c inputs).threads.trades.popped := by
      rw [hthreads, ← (State.inOrder_after c actions).settling, hi]
      exact List.mem_append_right _ (List.mem_singleton_self _)
    obtain ⟨maker, taker, hbetween, hsent⟩ := exists_messages_of_trade c inputs hpopped
    have hbad : ∃ order ∈ [maker, taker], UserRegistry.get order.userId = none := by
      rcases hget with hmaker | htaker
      · exact ⟨maker, by simp, hbetween.makerId ▸ hmaker⟩
      · exact ⟨taker, by simp, hbetween.takerId ▸ htaker⟩
    obtain ⟨order, horder, hnone⟩ := hbad
    obtain ⟨session, message, hmessage, hdecode⟩ := hsent order horder
    exact ⟨session, message, hmessage, .inr ⟨order, hdecode, hnone⟩⟩

/-- **A crash needs a bad message.**  If decoding has thrown or the inventory thread has, in
whatever interleaving, then some client has sent a complete message with no NUL in its ticker, or
an order of a user that is not in the registry. -/
theorem crash_needs_bad_message [PriceSum] (c : Capacities) (inputs : List ExchangeInput)
    (h : (∃ fd, (after c inputs).gateway.control = .thrown fd) ∨
      (after c inputs).threads.terminated = true) :
    ∃ session, ∃ message ∈
      blocks inboundWireMessageSize ((sessions c inputs).bytes session),
      0 ∉ tickerField message ∨
        ∃ order, decodeInboundMessage message = some (.add order) ∧
          UserRegistry.get order.userId = none :=
  exists_bad_message h

/-- The first message of a client has a ticker of sixteen letters. -/
theorem crash_of_unterminated_ticker :
    let message : List UInt8 :=
      0 :: List.replicate 16 0 ++ List.replicate 16 0x41 ++ List.replicate 17 0
    let inputs : List ExchangeInput :=
      [.gateway .roundOver, .gateway (.accept 5), .gateway (.readFrom 5),
        .gateway (.read (.data message))]
    ∃ session, ∃ block ∈ blocks inboundWireMessageSize
      ((@sessions PriceSum.int64 .exchange inputs).bytes session),
      0 ∉ tickerField block ∨ ∃ order, decodeInboundMessage block = some (.add order) ∧
        UserRegistry.get order.userId = none := by
  intro message inputs
  exact @crash_needs_bad_message PriceSum.int64 .exchange inputs (.inl ⟨5, by rfl⟩)

/-- **An orderly exit is a sequential run.**  If the main thread has come to `WriteSnapshot` and the
queues are empty, then the commands of each session are all its complete messages, and with the
queue in which the sessions are interleaved the whole exchange has done what a sequential run does:
its books, all the trades and the accounts are those of that run, and the datagrams are among its
events. -/
theorem orderly_exit_is_sequential [PriceSum] (c : Capacities) (inputs : List ExchangeInput)
    (hmain : (after c inputs).threads.mainThread = .writeSnapshot)
    (hinbound : (after c inputs).threads.inbound.items = [])
    (htrades : (after c inputs).threads.trades.items = [])
    (hmarketData : (after c inputs).threads.marketData.items = []) :
    (∀ session, (blocks inboundWireMessageSize ((sessions c inputs).bytes session)).map
        decodeInboundMessage = ((sessions c inputs).commands session).map some) ∧
    (after c inputs).threads.router =
      MatchingEngineRouter.after ((sessions c inputs).queue.map Prod.snd) ∧
    (after c inputs).threads.settled.map Prod.fst =
      MatchingEngineRouter.tradesOf ((sessions c inputs).queue.map Prod.snd) ∧
    (after c inputs).threads.registry =
      UserRegistry.fresh.settleAll (after c inputs).threads.settled ∧
    (datagrams c inputs).Sublist (feedOf ((sessions c inputs).queue.map Prod.snd)) := by
  obtain ⟨actions, hthreads, hdatagrams⟩ := exists_actions c inputs
  have ho : (after c inputs).threads.Ordered := hthreads ▸ State.ordered_after c actions
  have hrank : (after c inputs).threads.mainThread.rank = 8 := by
    rw [hmain]
    rfl
  have hdrained : (after c inputs).threads.Drained := by
    refine State.drained_of_empty ?_ ?_ (ho.matching_joined (by omega))
      (ho.inventory_joined (by omega)) hinbound htrades hmarketData
    · exact hthreads ▸ State.inOrder_after c actions
    · exact hthreads ▸ State.accounted_after actions
  obtain ⟨-, -, -, ⟨hexecuted, hrouter⟩, ⟨hsettled, hregistry⟩, -⟩ := hdrained
  have hfeed := State.datagrams_sublist c actions
  rw [← hdatagrams, ← hthreads, hexecuted] at hfeed
  rw [pushed_eq_queue] at hrouter hsettled hfeed
  refine ⟨?_, hrouter, hsettled, hregistry, hfeed⟩
  -- the gateway has stopped, so no message is in hand
  have hplace := (coupled_after c inputs).place
  rw [ho.gateway_joined (by omega)] at hplace
  have hstopped : (after c inputs).gateway.control = .stopped := hplace
  rintro ⟨fd, k⟩
  refine (framed_after c inputs fd).decoded_of_due ?_ k
  unfold Gateway.due
  rw [hstopped]

/-- After the session of two crossing orders the books are those of a sequential run. -/
theorem orderly_exit_after_two_orders :
    (@after PriceSum.int64 .exchange twoOrders).threads.router =
      @MatchingEngineRouter.after PriceSum.int64
        ((@sessions PriceSum.int64 .exchange twoOrders).queue.map Prod.snd) :=
  (@orderly_exit_is_sequential PriceSum.int64 .exchange twoOrders (by decide +kernel)
    (by decide +kernel) (by decide +kernel) (by decide +kernel)).2.1

end Exchange

end ToyExchange
