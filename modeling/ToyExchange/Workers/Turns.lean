import ToyExchange.Workers.Progress

/-!
# The turns of the threads

`Move` lists what a step can do to the state.  Here the steps are listed by the thread whose turn it
is, with what it sends and with the reason why it waits if it does (`turn_step`).  What only one
thread can do is read off that list: only the gateway thread pushes commands
(`Turn.frame_gateway`), only the inventory thread throws (`cause_after`), and the datagrams are the
events that the market-data thread has popped, in order and without those that could not be sent
(`datagrams_sublist`).
-/

namespace ToyExchange

/-- A settlement throws exactly if one of the users of the trade is not in the registry. -/
lemma UserRegistry.threw_iff {r : UserRegistry} {trade : Trade} {mid : Option ℤ} :
    (r.settle trade mid).threw = true ↔ get trade.makerId = none ∨ get trade.takerId = none := by
  unfold settle
  cases get trade.makerId with
  | none => simp
  | some maker =>
    cases get trade.takerId with
    | none => simp
    | some taker => simp

namespace State

variable {c : Capacities}

/-- The main thread can go on. -/
def MainReady (s : State c) : Prop :=
  match s.mainThread with
  | .awaitSignal => s.shutdownRequested = true
  | .stopGateway => True
  | .joinGateway => s.gatewayThread = .finished
  | .setGatewayFinished => True
  | .joinMatching => s.matchingThread = .finished
  | .setMatchingEngineFinished => True
  | .joinInventory => s.inventoryThread = .finished
  | .joinMarketData => s.marketDataThread = .finished
  | .writeSnapshot => False

/-- What happens when a thread takes its turn, or a signal arrives. -/
inductive Turn [PriceSum] (s : State c) : Action → State c → List MarketEvent → Prop
  /-- The process has ended. -/
  | rests (hterm : s.terminated = true) {a : Action} : Turn s a s []
  | signal : Turn s .signal { s with shutdownRequested := true } []
  | main {s' : State c} (hready : s.MainReady) (hmain : MainMove s s') : Turn s .main s' []
  | mainWaits (hready : ¬ s.MainReady) : Turn s .main s []
  | gatewayEnters (hg : s.gatewayThread = .loopHead) (hrunning : s.running = true)
      {message : Option InboundCommand} :
      Turn s (.gateway message) { s with gatewayThread := .serving } []
  | gatewayLeaves (hg : s.gatewayThread = .loopHead) (hrunning : s.running = false)
      {message : Option InboundCommand} :
      Turn s (.gateway message) { s with gatewayThread := .finished } []
  | gatewayReturns (hg : s.gatewayThread = .serving) :
      Turn s (.gateway none) { s with gatewayThread := .loopHead } []
  | gatewayReads (hg : s.gatewayThread = .serving) {cmd : InboundCommand} :
      Turn s (.gateway (some cmd)) { s with gatewayThread := .dispatching cmd } []
  | dispatches {cmd : InboundCommand} {q : BoundedFifo InboundCommand c.inbound}
      (hg : s.gatewayThread = .dispatching cmd) (hpush : s.inbound.push cmd = some q)
      {message : Option InboundCommand} :
      Turn s (.gateway message) { s with inbound := q, gatewayThread := .serving } []
  | dispatchWaits {cmd : InboundCommand} (hg : s.gatewayThread = .dispatching cmd)
      (hpush : s.inbound.push cmd = none) {message : Option InboundCommand} :
      Turn s (.gateway message) s []
  | gatewayEnded (hg : s.gatewayThread = .finished) {message : Option InboundCommand} :
      Turn s (.gateway message) s []
  | matchingPolls (hidle : s.matchingThread.work? = none) :
      Turn s .matching { s with
        matchingThread := (s.matchingThread.poll (program s.router) s.gatewayFinished s.inbound).1
        inbound := (s.matchingThread.poll (program s.router) s.gatewayFinished s.inbound).2 } []
  | publishes {event : MarketEvent} {todo : List EngineAction}
      {q : BoundedFifo MarketEvent c.marketData}
      (hm : s.matchingThread = .working (.publish event :: todo))
      (hpush : s.marketData.push event = some q) :
      Turn s .matching { s with marketData := q, matchingThread := .working todo } []
  | publishWaits {event : MarketEvent} {todo : List EngineAction}
      (hm : s.matchingThread = .working (.publish event :: todo))
      (hpush : s.marketData.push event = none) : Turn s .matching s []
  | queuesTrade {trade : Trade} {todo : List EngineAction} {q : BoundedFifo Trade c.trades}
      (hm : s.matchingThread = .working (.queueTrade trade :: todo))
      (hpush : s.trades.push trade = some q) :
      Turn s .matching { s with trades := q, matchingThread := .working todo } []
  | queueTradeWaits {trade : Trade} {todo : List EngineAction}
      (hm : s.matchingThread = .working (.queueTrade trade :: todo))
      (hpush : s.trades.push trade = none) : Turn s .matching s []
  | commits {router : MatchingEngineRouter} {todo : List EngineAction}
      (hm : s.matchingThread = .working (.commit router :: todo)) :
      Turn s .matching { s with router := router, matchingThread := .working todo } []
  | completes (hm : s.matchingThread = .working []) :
      Turn s .matching { s with matchingThread := .popping } []
  | inventoryPolls (hidle : s.inventoryThread.work? = none) :
      Turn s .inventory { s with
        inventoryThread := (s.inventoryThread.poll id s.matchingEngineFinished s.trades).1
        trades := (s.inventoryThread.poll id s.matchingEngineFinished s.trades).2 } []
  | settles {trade : Trade} (hi : s.inventoryThread = .working trade)
      (hok : (s.registry.settle trade (s.router.midPrice trade.ticker)).threw = false) :
      Turn s .inventory { s with
        registry := (s.registry.settle trade (s.router.midPrice trade.ticker)).registry
        settled := s.settled ++ [(trade, s.router.midPrice trade.ticker)]
        inventoryThread := .popping } []
  | throws {trade : Trade} (hi : s.inventoryThread = .working trade)
      (hthrew : (s.registry.settle trade (s.router.midPrice trade.ticker)).threw = true) :
      Turn s .inventory { s with terminated := true } []
  | marketDataPolls (hidle : s.marketDataThread.work? = none) {delivered : Bool} :
      Turn s (.marketData delivered) { s with
        marketDataThread := (s.marketDataThread.poll id s.matchingEngineFinished s.marketData).1
        marketData := (s.marketDataThread.poll id s.matchingEngineFinished s.marketData).2 } []
  | sends {event : MarketEvent} (hd : s.marketDataThread = .working event) {delivered : Bool} :
      Turn s (.marketData delivered) { s with marketDataThread := .popping }
        (if delivered then [event] else [])

section Turns

variable [PriceSum]

lemma turn_stepMain (s : State c) : Turn s .main s.stepMain [] := by
  unfold stepMain
  split
  case h_1 hm =>
    split_ifs with hshutdown
    · exact .main (by rw [MainReady, hm]; exact hshutdown) (.seesSignal hm)
    · exact .mainWaits (by rw [MainReady, hm]; exact hshutdown)
  case h_2 hm => exact .main (by rw [MainReady, hm]; trivial) (.stopsGateway hm)
  case h_3 hm =>
    split_ifs with hjoin
    · exact .main (by rw [MainReady, hm]; exact hjoin) (.joinsGateway hm hjoin)
    · exact .mainWaits (by rw [MainReady, hm]; exact hjoin)
  case h_4 hm => exact .main (by rw [MainReady, hm]; trivial) (.setsGatewayFinished hm)
  case h_5 hm =>
    split_ifs with hjoin
    · exact .main (by rw [MainReady, hm]; exact hjoin) (.joinsMatching hm hjoin)
    · exact .mainWaits (by rw [MainReady, hm]; exact hjoin)
  case h_6 hm => exact .main (by rw [MainReady, hm]; trivial) (.setsMatchingEngineFinished hm)
  case h_7 hm =>
    split_ifs with hjoin
    · exact .main (by rw [MainReady, hm]; exact hjoin) (.joinsInventory hm hjoin)
    · exact .mainWaits (by rw [MainReady, hm]; exact hjoin)
  case h_8 hm =>
    split_ifs with hjoin
    · exact .main (by rw [MainReady, hm]; exact hjoin) (.joinsMarketData hm hjoin)
    · exact .mainWaits (by rw [MainReady, hm]; exact hjoin)
  case h_9 hm => exact .mainWaits (by rw [MainReady, hm]; exact id)

lemma turn_stepGateway (s : State c) (message : Option InboundCommand) :
    Turn s (.gateway message) (s.stepGateway message) [] := by
  unfold stepGateway
  split
  · case _ hg =>
    split_ifs with hrunning
    · exact .gatewayEnters hg hrunning
    · exact .gatewayLeaves hg (Bool.not_eq_true _ ▸ hrunning)
  · case _ hg =>
    cases message with
    | none => exact .gatewayReturns hg
    | some cmd => exact .gatewayReads hg
  · case _ cmd hg =>
    split
    · case _ hpush => exact .dispatchWaits hg hpush
    · case _ q hpush => exact .dispatches hg hpush
  · case _ hg => exact .gatewayEnded hg

lemma turn_stepMatching (s : State c) : Turn s .matching s.stepMatching [] := by
  unfold stepMatching
  split
  · case _ todo hm =>
    unfold execute
    split
    · exact .completes hm
    · split
      · case _ hpush => exact .publishWaits hm hpush
      · case _ q hpush => exact .publishes hm hpush
    · split
      · case _ hpush => exact .queueTradeWaits hm hpush
      · case _ q hpush => exact .queuesTrade hm hpush
    · exact .commits hm
  · case _ hnot => exact .matchingPolls (PollLoop.work?_eq_none hnot)

lemma turn_stepInventory (s : State c) : Turn s .inventory s.stepInventory [] := by
  unfold stepInventory
  split
  · case _ trade hi =>
    unfold settleTrade
    dsimp only
    split_ifs with hthrew
    · rw [UserRegistry.settle_of_throws hthrew]
      exact .throws hi hthrew
    · exact .settles hi (Bool.not_eq_true _ ▸ hthrew)
  · case _ hnot => exact .inventoryPolls (PollLoop.work?_eq_none hnot)

lemma turn_stepMarketData (s : State c) (delivered : Bool) :
    Turn s (.marketData delivered) (s.stepMarketData delivered).1
      (s.stepMarketData delivered).2 := by
  unfold stepMarketData
  split
  · case _ event hd => exact .sends hd
  · case _ hnot => exact .marketDataPolls (PollLoop.work?_eq_none hnot)

/-- Every step is one of the turns. -/
theorem turn_step (s : State c) (a : Action) : Turn s a (s.step a).1 (s.step a).2 := by
  unfold step
  split_ifs with hterm
  · exact .rests hterm
  · cases a with
    | signal => exact .signal
    | main => exact turn_stepMain s
    | gateway message => exact turn_stepGateway s message
    | matching => exact turn_stepMatching s
    | inventory => exact turn_stepInventory s
    | marketData delivered => exact turn_stepMarketData s delivered

variable {s s' : State c} {a : Action} {sent : List MarketEvent}

/-- Only the gateway thread moves the gateway thread and pushes commands. -/
lemma Turn.frame_gateway (h : Turn s a s' sent) (ha : ∀ message, a ≠ .gateway message) :
    s'.gatewayThread = s.gatewayThread ∧ s'.inbound.pushed = s.inbound.pushed := by
  cases h with
  | gatewayEnters | gatewayLeaves | gatewayReturns | gatewayReads | dispatches | dispatchWaits
  | gatewayEnded => exact absurd rfl (ha _)
  | main _ hmain =>
    obtain ⟨_, _, _, _, rfl⟩ := hmain.exists_eq
    exact ⟨rfl, rfl⟩
  | matchingPolls => exact ⟨rfl, (PollLoop.polls_poll _ _ _ _).pushed_eq⟩
  | _ => exact ⟨rfl, rfl⟩

/-! ## What is sent -/

/-- A turn sends what is in hand and pops, or the datagram in hand is lost. -/
lemma Turn.sent_spec (h : Turn s a s' sent) :
    ∃ more, s'.marketData.popped = s.marketData.popped ++ more ∧
      (sent ++ s'.marketDataThread.work?.toList = s.marketDataThread.work?.toList ++ more ∨
        a = .marketData false ∧ sent ++ s'.marketDataThread.work?.toList = []) := by
  -- the other threads leave both alone
  have hframe : s'.marketData.popped = s.marketData.popped →
      s'.marketDataThread = s.marketDataThread → sent = [] →
      ∃ more, s'.marketData.popped = s.marketData.popped ++ more ∧
        (sent ++ s'.marketDataThread.work?.toList = s.marketDataThread.work?.toList ++ more ∨
          a = .marketData false ∧ sent ++ s'.marketDataThread.work?.toList = []) := by
    intro hpopped hthread hsent
    refine ⟨[], hpopped.trans (List.append_nil _).symm, .inl ?_⟩
    rw [hthread, hsent, List.append_nil, List.nil_append]
  cases h with
  | main _ hmain =>
    obtain ⟨_, _, _, _, rfl⟩ := hmain.exists_eq
    exact hframe rfl rfl rfl
  | publishes _ hpush => exact hframe (BoundedFifo.push_eq_some hpush).2.1 rfl rfl
  | marketDataPolls hidle =>
    have hpolls := PollLoop.polls_poll id s.matchingEngineFinished s.marketDataThread s.marketData
    obtain ⟨more, hpopped, hwork⟩ := hpolls.popped_eq hidle
    refine ⟨more, hpopped, .inl ?_⟩
    rw [hidle]
    rw [List.map_id] at hwork
    exact hwork
  | @sends event hd delivered =>
    refine ⟨[], (List.append_nil _).symm, ?_⟩
    rw [hd]
    cases delivered with
    | true => exact .inl rfl
    | false => exact .inr ⟨rfl, rfl⟩
  | _ => exact hframe rfl rfl rfl

/-- The datagrams sent, and the one in hand, are among the events popped, in order. -/
lemma datagrams_sublist_popped (c : Capacities) (actions : List Action) :
    ((Mealy.run step (init c) actions).2 ++
        (after c actions).marketDataThread.work?.toList).Sublist
      (after c actions).marketData.popped := by
  induction actions using List.reverseRecOn with
  | nil => exact List.Sublist.refl _
  | append_singleton actions a ih =>
    unfold after at ih ⊢
    rw [Mealy.run_concat_fst, Mealy.run_concat_snd]
    obtain ⟨more, hpopped, hsent⟩ := (turn_step (Mealy.run step (init c) actions).1 a).sent_spec
    rw [hpopped, List.append_assoc]
    rcases hsent with hsent | ⟨-, hlost⟩
    · rw [hsent, ← List.append_assoc]
      exact ih.append_right more
    · rw [hlost, List.append_nil]
      exact (List.sublist_append_left _ _).trans (ih.trans (List.sublist_append_left _ _))

/-- The datagrams sent are among the events published for the commands taken, in order. -/
theorem datagrams_sublist (c : Capacities) (actions : List Action) :
    (Mealy.run step (init c) actions).2.Sublist (feedOf (after c actions).inbound.popped) := by
  have hpopped : (after c actions).marketData.popped <+: feedOf (after c actions).inbound.popped :=
    (BoundedFifo.popped_prefix _).trans ⟨_, (inOrder_after c actions).events⟩
  have hsent := (List.sublist_append_left _ _).trans (datagrams_sublist_popped c actions)
  exact hsent.trans hpopped.sublist

/-! ## What ends the process -/

/-- If the process has ended, then because of a trade whose users are not both in the registry. -/
def Cause (s : State c) : Prop :=
  s.terminated = true → ∃ trade, s.inventoryThread = .working trade ∧
    (UserRegistry.get trade.makerId = none ∨ UserRegistry.get trade.takerId = none)

lemma Turn.cause (h : Turn s a s' sent) (hcause : s.Cause) : s'.Cause := by
  intro hterm'
  cases h with
  | rests hterm => exact hcause hterm
  | main _ hmain =>
    obtain ⟨_, _, _, _, rfl⟩ := hmain.exists_eq
    exact hcause hterm'
  | inventoryPolls hidle =>
    obtain ⟨trade, hi, -⟩ := hcause hterm'
    rw [hi] at hidle
    cases hidle
  | settles hi hok =>
    obtain ⟨trade', hi', hget⟩ := hcause hterm'
    obtain rfl := PollLoop.working.inj (hi'.symm.trans hi)
    rw [UserRegistry.threw_iff.mpr hget] at hok
    cases hok
  | throws hi hthrew => exact ⟨_, hi, UserRegistry.threw_iff.mp hthrew⟩
  | _ => exact hcause hterm'

/-- The process ends only because of a trade in hand whose users are not both in the registry. -/
theorem cause_after (c : Capacities) (actions : List Action) : (after c actions).Cause :=
  Mealy.run_invariant (fun s a hs => (turn_step s a).cause hs) (fun h => by cases h) actions

end Turns

end State

end ToyExchange
