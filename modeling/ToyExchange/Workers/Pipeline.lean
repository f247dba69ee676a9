import ToyExchange.Engine.Router
import ToyExchange.Foundations.BoundedFifo
import ToyExchange.Workers.Settlement

/-!
# The threads of the exchange

Four worker threads over three bounded queues: the gateway pushes commands, the matching-engine
thread executes them and pushes market-data events and trades, the inventory thread settles the
trades and the market-data thread sends the events.  The main thread starts them, waits for a
signal and shuts them down in order: it stops and joins each stage before it sets the flag that
lets the next stage end.

Every access to a queue, a flag or the published mid prices is one step of `State.step`, and an
interleaving is a list of actions, one for each step taken.  An action whose thread cannot move (a
push to a full queue, a join of a running thread, a thread that has ended) leaves the state alone.
Sockets are the environment: what a client sends is part of the gateway's action, and whether
`sendto` succeeds is part of the market-data thread's.  An exception that leaves a thread ends the
process.

The body of the matching-engine thread's loop is a list of `EngineAction`s (`program`), of which
each is one step.  Trades are made inside `OnOrderAdd`, and its last action publishes the new mid
price, so the other threads see the engine as it was until all its trades are pushed; a cancel
publishes the mid price before its event is pushed.

`Move` lists everything a step can do (`move_step`); invariants are proved by cases on it.
-/

namespace ToyExchange

/-- The capacities of the three queues. -/
structure Capacities where
  inbound : ℕ
  marketData : ℕ
  trades : ℕ

/-- The capacity of each queue in the exchange. -/
def queueCapacity : ℕ := 4096

/-- The queues of the exchange. -/
def Capacities.exchange : Capacities := ⟨queueCapacity, queueCapacity, queueCapacity⟩

/-- What the matching-engine thread does for a command, one visible effect at a time. -/
inductive EngineAction where
  /-- Push an event to the market-data queue. -/
  | publish (event : MarketEvent)
  /-- Push a trade to the inventory queue. -/
  | queueTrade (trade : Trade)
  /-- Return from the engine, whose mid price is then the new one. -/
  | commit (router : MatchingEngineRouter)

/-- The effects of a command in order. -/
def program [PriceSum] (r : MatchingEngineRouter) : InboundCommand → List EngineAction
  | .add order =>
    .publish (.orderAdd order) ::
      ((r.onOrderAdd order).2.flatMap fun t => [.publish (.trade t), .queueTrade t]) ++
        [.commit (r.onOrderAdd order).1]
  | .cancel request => [.commit (r.onOrderCancel request), .publish (.orderCancel request)]

/-- Where the gateway thread is. -/
inductive GatewayLoop where
  /-- About to read `running_`. -/
  | loopHead
  /-- Serving its connections. -/
  | serving
  /-- In `Dispatch`, about to try to push a command. -/
  | dispatching (cmd : InboundCommand)
  | finished

instance (g : GatewayLoop) : Decidable (g = .finished) :=
  match g with
  | .loopHead => isFalse nofun
  | .serving => isFalse nofun
  | .dispatching _ => isFalse nofun
  | .finished => isTrue rfl

/-- The next thing the main thread does. -/
inductive MainPhase where
  | awaitSignal
  | stopGateway
  | joinGateway
  | setGatewayFinished
  | joinMatching
  | setMatchingEngineFinished
  | joinInventory
  | joinMarketData
  | writeSnapshot
deriving DecidableEq

/-- The state shared by the threads, and where each of them is. -/
structure State (c : Capacities) where
  inbound : BoundedFifo InboundCommand c.inbound
  marketData : BoundedFifo MarketEvent c.marketData
  trades : BoundedFifo Trade c.trades
  router : MatchingEngineRouter
  registry : UserRegistry
  /-- The trades settled so far, each with the mid price read for it. -/
  settled : List (Trade × Option ℤ)
  shutdownRequested : Bool
  /-- `running_` of the gateway. -/
  running : Bool
  gatewayFinished : Bool
  matchingEngineFinished : Bool
  /-- An exception left a thread. -/
  terminated : Bool
  gatewayThread : GatewayLoop
  matchingThread : PollLoop (List EngineAction)
  inventoryThread : PollLoop Trade
  marketDataThread : PollLoop MarketEvent
  mainThread : MainPhase

/-- A step of one thread, or a signal. -/
inductive Action where
  | signal
  | main
  /-- If the gateway is serving: it reads a whole message, or it is done with this round. -/
  | gateway (message : Option InboundCommand)
  | matching
  | inventory
  /-- If the thread is sending: whether `sendto` succeeds. -/
  | marketData (delivered : Bool)

namespace State

variable {c : Capacities}

/-- All threads are started and nothing has happened. -/
def init (c : Capacities) : State c where
  inbound := .empty
  marketData := .empty
  trades := .empty
  router := .empty
  registry := .fresh
  settled := []
  shutdownRequested := false
  running := true
  gatewayFinished := false
  matchingEngineFinished := false
  terminated := false
  gatewayThread := .loopHead
  matchingThread := .popping
  inventoryThread := .popping
  marketDataThread := .popping
  mainThread := .awaitSignal

/-- The main thread. -/
def stepMain (s : State c) : State c :=
  match s.mainThread with
  | .awaitSignal => if s.shutdownRequested then { s with mainThread := .stopGateway } else s
  | .stopGateway => { s with
      running := false
      mainThread := .joinGateway }
  | .joinGateway =>
    if s.gatewayThread = .finished then { s with mainThread := .setGatewayFinished } else s
  | .setGatewayFinished => { s with
      gatewayFinished := true
      mainThread := .joinMatching }
  | .joinMatching =>
    if s.matchingThread = .finished then { s with mainThread := .setMatchingEngineFinished } else s
  | .setMatchingEngineFinished => { s with
      matchingEngineFinished := true
      mainThread := .joinInventory }
  | .joinInventory =>
    if s.inventoryThread = .finished then { s with mainThread := .joinMarketData } else s
  | .joinMarketData =>
    if s.marketDataThread = .finished then { s with mainThread := .writeSnapshot } else s
  | .writeSnapshot => s

/-- The gateway thread.  `Dispatch` retries until the push succeeds and does not look at
`running_`. -/
def stepGateway (s : State c) (message : Option InboundCommand) : State c :=
  match s.gatewayThread with
  | .loopHead =>
    if s.running then { s with gatewayThread := .serving }
    else { s with gatewayThread := .finished }
  | .serving =>
    match message with
    | none => { s with gatewayThread := .loopHead }
    | some cmd => { s with gatewayThread := .dispatching cmd }
  | .dispatching cmd =>
    match s.inbound.push cmd with
    | none => s
    | some q => { s with
        inbound := q
        gatewayThread := .serving }
  | .finished => s

/-- One effect of the matching-engine thread; a push is retried until it succeeds. -/
def execute (s : State c) : List EngineAction → State c
  | [] => { s with matchingThread := .popping }
  | .publish event :: todo =>
    match s.marketData.push event with
    | none => s
    | some q => { s with
        marketData := q
        matchingThread := .working todo }
  | .queueTrade trade :: todo =>
    match s.trades.push trade with
    | none => s
    | some q => { s with
        trades := q
        matchingThread := .working todo }
  | .commit router :: todo => { s with
      router := router
      matchingThread := .working todo }

/-- The matching-engine thread. -/
def stepMatching [PriceSum] (s : State c) : State c :=
  match s.matchingThread with
  | .working todo => s.execute todo
  | l =>
    let p := l.poll (program s.router) s.gatewayFinished s.inbound
    { s with
      matchingThread := p.1
      inbound := p.2 }

/-- Settle a popped trade with the mid price published at this moment. -/
def settleTrade (s : State c) (trade : Trade) : State c :=
  let mid := s.router.midPrice trade.ticker
  let result := s.registry.settle trade mid
  if result.threw then { s with
    registry := result.registry
    terminated := true }
  else { s with
    registry := result.registry
    settled := s.settled ++ [(trade, mid)]
    inventoryThread := .popping }

/-- The inventory thread. -/
def stepInventory (s : State c) : State c :=
  match s.inventoryThread with
  | .working trade => s.settleTrade trade
  | l =>
    let p := l.poll id s.matchingEngineFinished s.trades
    { s with
      inventoryThread := p.1
      trades := p.2 }

/-- The market-data thread.  A datagram that cannot be sent is dropped. -/
def stepMarketData (s : State c) (delivered : Bool) : State c × List MarketEvent :=
  match s.marketDataThread with
  | .working event => ({ s with marketDataThread := .popping }, if delivered then [event] else [])
  | l =>
    let p := l.poll id s.matchingEngineFinished s.marketData
    ({ s with
      marketDataThread := p.1
      marketData := p.2 }, [])

/-- One step of the exchange, and the datagrams it sends. -/
def step [PriceSum] (s : State c) (a : Action) : State c × List MarketEvent :=
  if s.terminated then (s, [])
  else match a with
    | .signal => ({ s with shutdownRequested := true }, [])
    | .main => (s.stepMain, [])
    | .gateway message => (s.stepGateway message, [])
    | .matching => (s.stepMatching, [])
    | .inventory => (s.stepInventory, [])
    | .marketData delivered => s.stepMarketData delivered

/-- The state after an interleaving. -/
def after [PriceSum] (c : Capacities) (actions : List Action) : State c :=
  (Mealy.run step (init c) actions).1

/-! ## What a step can do -/

/-- The moves of the main thread. -/
inductive MainMove (s : State c) : State c → Prop
  | seesSignal (hm : s.mainThread = .awaitSignal) :
      MainMove s { s with mainThread := .stopGateway }
  | stopsGateway (hm : s.mainThread = .stopGateway) :
      MainMove s { s with running := false, mainThread := .joinGateway }
  | joinsGateway (hm : s.mainThread = .joinGateway) (hjoin : s.gatewayThread = .finished) :
      MainMove s { s with mainThread := .setGatewayFinished }
  | setsGatewayFinished (hm : s.mainThread = .setGatewayFinished) :
      MainMove s { s with gatewayFinished := true, mainThread := .joinMatching }
  | joinsMatching (hm : s.mainThread = .joinMatching) (hjoin : s.matchingThread = .finished) :
      MainMove s { s with mainThread := .setMatchingEngineFinished }
  | setsMatchingEngineFinished (hm : s.mainThread = .setMatchingEngineFinished) :
      MainMove s { s with matchingEngineFinished := true, mainThread := .joinInventory }
  | joinsInventory (hm : s.mainThread = .joinInventory) (hjoin : s.inventoryThread = .finished) :
      MainMove s { s with mainThread := .joinMarketData }
  | joinsMarketData (hm : s.mainThread = .joinMarketData)
      (hjoin : s.marketDataThread = .finished) : MainMove s { s with mainThread := .writeSnapshot }

/-- The main thread writes the flags and its own place only. -/
lemma MainMove.exists_eq {s s' : State c} (h : MainMove s s') :
    ∃ running gatewayFinished matchingEngineFinished mainThread,
      s' = { s with running, gatewayFinished, matchingEngineFinished, mainThread } := by
  cases h <;> exact ⟨_, _, _, _, rfl⟩

/-- The moves of the exchange.  A step that cannot be taken, a failed push among them, is
`waits`. -/
inductive Move [PriceSum] (s : State c) : State c → Prop
  | waits : Move s s
  | signal : Move s { s with shutdownRequested := true }
  | main {s' : State c} (hmain : MainMove s s') : Move s s'
  | gatewayTurns {g : GatewayLoop} (hg : s.gatewayThread ≠ .finished) :
      Move s { s with gatewayThread := g }
  | dispatches {cmd : InboundCommand} {q : BoundedFifo InboundCommand c.inbound}
      (hg : s.gatewayThread = .dispatching cmd) (hpush : s.inbound.push cmd = some q) :
      Move s { s with inbound := q, gatewayThread := .serving }
  | matchingPolls {l : PollLoop (List EngineAction)} {q : BoundedFifo InboundCommand c.inbound}
      (hidle : s.matchingThread.work? = none)
      (hpoll : PollLoop.Polls (program s.router) s.gatewayFinished s.matchingThread s.inbound l q) :
      Move s { s with matchingThread := l, inbound := q }
  | publishes {event : MarketEvent} {todo : List EngineAction}
      {q : BoundedFifo MarketEvent c.marketData}
      (hm : s.matchingThread = .working (.publish event :: todo))
      (hpush : s.marketData.push event = some q) :
      Move s { s with marketData := q, matchingThread := .working todo }
  | queuesTrade {trade : Trade} {todo : List EngineAction} {q : BoundedFifo Trade c.trades}
      (hm : s.matchingThread = .working (.queueTrade trade :: todo))
      (hpush : s.trades.push trade = some q) :
      Move s { s with trades := q, matchingThread := .working todo }
  | commits {router : MatchingEngineRouter} {todo : List EngineAction}
      (hm : s.matchingThread = .working (.commit router :: todo)) :
      Move s { s with router := router, matchingThread := .working todo }
  | completes (hm : s.matchingThread = .working []) : Move s { s with matchingThread := .popping }
  | inventoryPolls {l : PollLoop Trade} {q : BoundedFifo Trade c.trades}
      (hidle : s.inventoryThread.work? = none)
      (hpoll : PollLoop.Polls id s.matchingEngineFinished s.inventoryThread s.trades l q) :
      Move s { s with inventoryThread := l, trades := q }
  | settles {trade : Trade} (hi : s.inventoryThread = .working trade)
      (hok : (s.registry.settle trade (s.router.midPrice trade.ticker)).threw = false) :
      Move s { s with
        registry := (s.registry.settle trade (s.router.midPrice trade.ticker)).registry
        settled := s.settled ++ [(trade, s.router.midPrice trade.ticker)]
        inventoryThread := .popping }
  | throws : Move s { s with terminated := true }
  | marketDataPolls {l : PollLoop MarketEvent} {q : BoundedFifo MarketEvent c.marketData}
      (hidle : s.marketDataThread.work? = none)
      (hpoll : PollLoop.Polls id s.matchingEngineFinished s.marketDataThread s.marketData l q) :
      Move s { s with marketDataThread := l, marketData := q }
  | sends {event : MarketEvent} (hd : s.marketDataThread = .working event) :
      Move s { s with marketDataThread := .popping }

variable [PriceSum]

lemma move_stepMain (s : State c) : Move s s.stepMain := by
  unfold stepMain
  split
  case h_1 hm =>
    split_ifs
    · exact .main (.seesSignal hm)
    · exact .waits
  case h_2 hm => exact .main (.stopsGateway hm)
  case h_3 hm =>
    split_ifs with hjoin
    · exact .main (.joinsGateway hm hjoin)
    · exact .waits
  case h_4 hm => exact .main (.setsGatewayFinished hm)
  case h_5 hm =>
    split_ifs with hjoin
    · exact .main (.joinsMatching hm hjoin)
    · exact .waits
  case h_6 hm => exact .main (.setsMatchingEngineFinished hm)
  case h_7 hm =>
    split_ifs with hjoin
    · exact .main (.joinsInventory hm hjoin)
    · exact .waits
  case h_8 hm =>
    split_ifs with hjoin
    · exact .main (.joinsMarketData hm hjoin)
    · exact .waits
  case h_9 => exact .waits

lemma move_stepGateway (s : State c) (message : Option InboundCommand) :
    Move s (s.stepGateway message) := by
  unfold stepGateway
  cases hg : s.gatewayThread with
  | loopHead =>
    have hne : s.gatewayThread ≠ .finished := by rw [hg]; nofun
    dsimp only
    split_ifs
    · exact .gatewayTurns hne
    · exact .gatewayTurns hne
  | serving =>
    have hne : s.gatewayThread ≠ .finished := by rw [hg]; nofun
    cases message with
    | none => exact .gatewayTurns hne
    | some cmd => exact .gatewayTurns hne
  | dispatching cmd =>
    dsimp only
    cases hpush : s.inbound.push cmd with
    | none => exact .waits
    | some q => exact .dispatches hg hpush
  | finished => exact .waits

lemma move_execute {s : State c} {todo : List EngineAction}
    (hm : s.matchingThread = .working todo) : Move s (s.execute todo) := by
  unfold execute
  split
  · exact .completes hm
  · rename_i event todo
    cases hpush : s.marketData.push event with
    | none => exact .waits
    | some q => exact .publishes hm hpush
  · rename_i trade todo
    cases hpush : s.trades.push trade with
    | none => exact .waits
    | some q => exact .queuesTrade hm hpush
  · exact .commits hm

lemma move_stepMatching (s : State c) : Move s s.stepMatching := by
  unfold stepMatching
  split
  · rename_i todo hm
    exact move_execute hm
  · rename_i hidle
    refine .matchingPolls ?_ (PollLoop.polls_poll _ _ _ _)
    cases hm : s.matchingThread with
    | working todo => exact absurd hm (hidle todo)
    | popping | checkFlag | finished => rfl

lemma move_settleTrade {s : State c} {trade : Trade} (hi : s.inventoryThread = .working trade) :
    Move s (s.settleTrade trade) := by
  unfold settleTrade
  dsimp only
  split_ifs with hthrew
  · rw [UserRegistry.settle_of_throws hthrew]
    exact .throws
  · exact .settles hi (Bool.not_eq_true _ ▸ hthrew)

lemma move_stepInventory (s : State c) : Move s s.stepInventory := by
  unfold stepInventory
  split
  · rename_i trade hi
    exact move_settleTrade hi
  · rename_i hidle
    refine .inventoryPolls ?_ (PollLoop.polls_poll _ _ _ _)
    cases hi : s.inventoryThread with
    | working trade => exact absurd hi (hidle trade)
    | popping | checkFlag | finished => rfl

lemma move_stepMarketData (s : State c) (delivered : Bool) :
    Move s (s.stepMarketData delivered).1 := by
  unfold stepMarketData
  split
  · rename_i event hd
    exact .sends hd
  · rename_i hidle
    refine .marketDataPolls ?_ (PollLoop.polls_poll _ _ _ _)
    cases hd : s.marketDataThread with
    | working event => exact absurd hd (hidle event)
    | popping | checkFlag | finished => rfl

/-- Every step is one of the moves. -/
theorem move_step (s : State c) (a : Action) : Move s (s.step a).1 := by
  unfold step
  split_ifs
  · exact .waits
  · cases a with
    | signal => exact .signal
    | main => exact move_stepMain s
    | gateway message => exact move_stepGateway s message
    | matching => exact move_stepMatching s
    | inventory => exact move_stepInventory s
    | marketData delivered => exact move_stepMarketData s delivered

/-- What holds initially and is kept by every move holds after every interleaving. -/
theorem after_invariant {P : State c → Prop} (hinit : P (init c))
    (hmove : ∀ s s', P s → Move s s' → P s') (actions : List Action) : P (after c actions) :=
  Mealy.run_invariant (fun s a hs => hmove s _ hs (move_step s a)) hinit actions

end State

end ToyExchange
