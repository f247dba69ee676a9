import ToyExchange.Workers.Shutdown

/-!
# Backpressure and shutdown cannot deadlock

A thread that cannot go on waits for another one: the gateway for room in the inbound queue, the
matching-engine thread for a command or for room in one of its two queues, the other two for work,
and the main thread for a thread to end.  Nobody waits in a circle.  The market-data and inventory
threads wait for work only, and a thread that is joined has been told to end: following the waits
leads to a thread that can go on (`gateway_goes_on`, `matching_goes_on`, `inventory_goes_on`,
`marketData_goes_on`).

`Effect` lists the steps that do something.  A failed push, a failed pop and the read of a flag that
is not set are not among them.  A failed pop and the read of the flag are two steps, so a consumer
at a failed pop or behind one may need a second step to do something (`GoesOn`).  Sometimes nobody
can do without that second step: in the state of `no_effect_at_failed_pop` the main thread waits for
the matching-engine thread, which first has to fail to pop.
-/

namespace ToyExchange

namespace State

variable {c : Capacities}

/-! ## Flags that are set -/

/-- Once the main thread has passed the store of a flag, the flag is set. -/
structure Flagged (s : State c) : Prop where
  gatewayFinished : 4 ≤ s.mainThread.rank → s.gatewayFinished = true
  matchingEngineFinished : 6 ≤ s.mainThread.rank → s.matchingEngineFinished = true

lemma flagged_init : (init c).Flagged := by
  constructor <;> intro h <;> cases h

lemma flagged_advances {s s' : State c} (h : s.Flagged) (hadv : Advances s s') : s'.Flagged := by
  have hrank := hadv.rank
  constructor
  · intro hle
    rw [hadv.gatewayFinished]
    rcases Nat.lt_or_ge s.mainThread.rank 4 with hlt | hge
    · exact .inr (by omega)
    · exact .inl (h.gatewayFinished hge)
  · intro hle
    rw [hadv.matchingEngineFinished]
    rcases Nat.lt_or_ge s.mainThread.rank 6 with hlt | hge
    · exact .inr (by omega)
    · exact .inl (h.matchingEngineFinished hge)

section Moves

variable [PriceSum]

lemma flagged_move {s s' : State c} (h : s.Flagged) (hmove : Move s s') : s'.Flagged := by
  cases hmove with
  | main hmain => exact flagged_advances h hmain.advances
  | _ => exact ⟨h.gatewayFinished, h.matchingEngineFinished⟩

lemma ordered_after (c : Capacities) (actions : List Action) : (after c actions).Ordered :=
  after_invariant ordered_init (fun _ _ => ordered_move) actions

lemma flagged_after (c : Capacities) (actions : List Action) : (after c actions).Flagged :=
  after_invariant flagged_init (fun _ _ => flagged_move) actions

/-! ## Steps that do something -/

/-- A step of a thread that pushes or pops an element, sets or acts on a flag, leaves its loop,
completes a join, or goes on with the work in hand. -/
inductive Effect (s : State c) : State c → Prop
  /-- The main thread sees the signal, sets a flag or completes a join. -/
  | main {s' : State c} (hmain : MainMove s s') : Effect s s'
  /-- The gateway reads `running_` and goes on. -/
  | gatewayServes (hg : s.gatewayThread = .loopHead) (hrunning : s.running = true) :
      Effect s { s with gatewayThread := .serving }
  /-- The gateway reads `running_` and leaves its loop. -/
  | gatewayLeaves (hg : s.gatewayThread = .loopHead) (hrunning : s.running = false) :
      Effect s { s with gatewayThread := .finished }
  /-- The calls of the gateway to its sockets return. -/
  | gatewayReturns (hg : s.gatewayThread = .serving) :
      Effect s { s with gatewayThread := .loopHead }
  | dispatches {cmd : InboundCommand} {q : BoundedFifo InboundCommand c.inbound}
      (hg : s.gatewayThread = .dispatching cmd) (hpush : s.inbound.push cmd = some q) :
      Effect s { s with inbound := q, gatewayThread := .serving }
  /-- The matching-engine thread takes a command or leaves its loop. -/
  | matchingPolls {l : PollLoop (List EngineAction)} {q : BoundedFifo InboundCommand c.inbound}
      (hacts : PollLoop.Acts (program s.router) s.gatewayFinished s.matchingThread s.inbound l q) :
      Effect s { s with matchingThread := l, inbound := q }
  | publishes {event : MarketEvent} {todo : List EngineAction}
      {q : BoundedFifo MarketEvent c.marketData}
      (hm : s.matchingThread = .working (.publish event :: todo))
      (hpush : s.marketData.push event = some q) :
      Effect s { s with marketData := q, matchingThread := .working todo }
  | queuesTrade {trade : Trade} {todo : List EngineAction} {q : BoundedFifo Trade c.trades}
      (hm : s.matchingThread = .working (.queueTrade trade :: todo))
      (hpush : s.trades.push trade = some q) :
      Effect s { s with trades := q, matchingThread := .working todo }
  | commits {router : MatchingEngineRouter} {todo : List EngineAction}
      (hm : s.matchingThread = .working (.commit router :: todo)) :
      Effect s { s with router := router, matchingThread := .working todo }
  | completes (hm : s.matchingThread = .working []) : Effect s { s with matchingThread := .popping }
  /-- The inventory thread takes a trade or leaves its loop. -/
  | inventoryPolls {l : PollLoop Trade} {q : BoundedFifo Trade c.trades}
      (hacts : PollLoop.Acts id s.matchingEngineFinished s.inventoryThread s.trades l q) :
      Effect s { s with inventoryThread := l, trades := q }
  | settles {trade : Trade} (hi : s.inventoryThread = .working trade) :
      Effect s { s with
        registry := (s.registry.settle trade (s.router.midPrice trade.ticker)).registry
        settled := s.settled ++ [(trade, s.router.midPrice trade.ticker)]
        inventoryThread := .popping }
  /-- The market-data thread takes an event or leaves its loop. -/
  | marketDataPolls {l : PollLoop MarketEvent} {q : BoundedFifo MarketEvent c.marketData}
      (hacts : PollLoop.Acts id s.matchingEngineFinished s.marketDataThread s.marketData l q) :
      Effect s { s with marketDataThread := l, marketData := q }
  | sends {event : MarketEvent} (hd : s.marketDataThread = .working event) :
      Effect s { s with marketDataThread := .popping }

/-- The thread is a consumer at an attempt to pop that fails, or behind one. -/
def AtFailedPop (s : State c) : Action → Prop
  | .matching => s.matchingThread.AtFailedPop s.inbound
  | .inventory => s.inventoryThread.AtFailedPop s.trades
  | .marketData _ => s.marketDataThread.AtFailedPop s.marketData
  | .signal | .main | .gateway _ => False

/-- The thread does something in its next step or, if it is a consumer at or behind a failed pop, in
the one after. -/
def GoesOn (s : State c) (a : Action) : Prop :=
  a ≠ .signal ∧ (Effect s (s.step a).1 ∨
    s.AtFailedPop a ∧ Effect (s.step a).1 ((s.step a).1.step a).1)

variable {s : State c}

/-! ## The polls -/

lemma step_matching_of_idle (hterm : s.terminated = false) (hidle : s.matchingThread.work? = none) :
    (s.step .matching).1 =
      { s with
        matchingThread := (s.matchingThread.poll (program s.router) s.gatewayFinished s.inbound).1
        inbound := (s.matchingThread.poll (program s.router) s.gatewayFinished s.inbound).2 } := by
  rw [step, if_neg (by simp [hterm])]
  dsimp only [stepMatching]
  cases hm : s.matchingThread with
  | working todo => rw [hm] at hidle; cases hidle
  | popping | checkFlag | finished => rfl

lemma step_inventory_of_idle (hterm : s.terminated = false)
    (hidle : s.inventoryThread.work? = none) :
    (s.step .inventory).1 =
      { s with
        inventoryThread := (s.inventoryThread.poll id s.matchingEngineFinished s.trades).1
        trades := (s.inventoryThread.poll id s.matchingEngineFinished s.trades).2 } := by
  rw [step, if_neg (by simp [hterm])]
  dsimp only [stepInventory]
  cases hi : s.inventoryThread with
  | working trade => rw [hi] at hidle; cases hidle
  | popping | checkFlag | finished => rfl

lemma step_marketData_of_idle (hterm : s.terminated = false)
    (hidle : s.marketDataThread.work? = none) (delivered : Bool) :
    (s.step (.marketData delivered)).1 =
      { s with
        marketDataThread := (s.marketDataThread.poll id s.matchingEngineFinished s.marketData).1
        marketData := (s.marketDataThread.poll id s.matchingEngineFinished s.marketData).2 } := by
  rw [step, if_neg (by simp [hterm])]
  dsimp only [stepMarketData]
  cases hd : s.marketDataThread with
  | working event => rw [hd] at hidle; cases hidle
  | popping | checkFlag | finished => rfl

/-- An idle matching-engine thread with a command waiting, or with its flag set, goes on. -/
lemma matching_polls (hterm : s.terminated = false) (hidle : s.matchingThread.work? = none)
    (hrunning : s.matchingThread ≠ .finished)
    (h : s.gatewayFinished = true ∨ s.inbound.items ≠ []) : s.GoesOn .matching := by
  refine ⟨nofun, ?_⟩
  have hstep := step_matching_of_idle hterm hidle
  rcases PollLoop.acts_within_two (program s.router) hidle hrunning h with hacts | ⟨hfailed, hacts⟩
  · left
    rw [hstep]
    exact .matchingPolls hacts
  · right
    refine ⟨hfailed, ?_⟩
    have hterm' : (s.step .matching).1.terminated = false := by rw [hstep]; exact hterm
    have hidle' : (s.step .matching).1.matchingThread.work? = none := by
      rw [hstep]
      exact hacts.idle
    rw [step_matching_of_idle hterm' hidle', hstep]
    exact .matchingPolls hacts

/-- An idle inventory thread with a trade waiting, or with its flag set, goes on. -/
lemma inventory_polls (hterm : s.terminated = false) (hidle : s.inventoryThread.work? = none)
    (hrunning : s.inventoryThread ≠ .finished)
    (h : s.matchingEngineFinished = true ∨ s.trades.items ≠ []) : s.GoesOn .inventory := by
  refine ⟨nofun, ?_⟩
  have hstep := step_inventory_of_idle hterm hidle
  rcases PollLoop.acts_within_two id hidle hrunning h with hacts | ⟨hfailed, hacts⟩
  · left
    rw [hstep]
    exact .inventoryPolls hacts
  · right
    refine ⟨hfailed, ?_⟩
    have hterm' : (s.step .inventory).1.terminated = false := by rw [hstep]; exact hterm
    have hidle' : (s.step .inventory).1.inventoryThread.work? = none := by
      rw [hstep]
      exact hacts.idle
    rw [step_inventory_of_idle hterm' hidle', hstep]
    exact .inventoryPolls hacts

/-- An idle market-data thread with an event waiting, or with its flag set, goes on. -/
lemma marketData_polls (hterm : s.terminated = false) (hidle : s.marketDataThread.work? = none)
    (hrunning : s.marketDataThread ≠ .finished)
    (h : s.matchingEngineFinished = true ∨ s.marketData.items ≠ []) :
    s.GoesOn (.marketData true) := by
  refine ⟨nofun, ?_⟩
  have hstep := step_marketData_of_idle hterm hidle true
  rcases PollLoop.acts_within_two id hidle hrunning h with hacts | ⟨hfailed, hacts⟩
  · left
    rw [hstep]
    exact .marketDataPolls hacts
  · right
    refine ⟨hfailed, ?_⟩
    have hterm' : (s.step (.marketData true)).1.terminated = false := by rw [hstep]; exact hterm
    have hidle' : (s.step (.marketData true)).1.marketDataThread.work? = none := by
      rw [hstep]
      exact hacts.idle
    rw [step_marketData_of_idle hterm' hidle' true, hstep]
    exact .marketDataPolls hacts

/-! ## Following the waits -/

/-- No thread throws in its next step. -/
def NoThrow (s : State c) : Prop := ∀ a, (s.step a).1.terminated = false

lemma NoThrow.terminated (h : s.NoThrow) : s.terminated = false := by
  have hnext := h .signal
  unfold step at hnext
  split_ifs at hnext with hterm
  · exact hnext
  · simpa using hterm

/-- Only a settlement throws. -/
lemma noThrow_of_idle (hterm : s.terminated = false) (hidle : s.inventoryThread.work? = none) :
    s.NoThrow := by
  intro a
  cases a with
  | inventory =>
    rw [step_inventory_of_idle hterm hidle]
    exact hterm
  | signal =>
    rw [step, if_neg (by simp [hterm])]
    exact hterm
  | main =>
    rw [step, if_neg (by simp [hterm])]
    dsimp only [stepMain]
    split
    case h_2 | h_4 | h_6 | h_9 => exact hterm
    all_goals
      split_ifs
      · exact hterm
      · exact hterm
  | gateway message =>
    rw [step, if_neg (by simp [hterm])]
    dsimp only [stepGateway]
    split
    · split_ifs
      · exact hterm
      · exact hterm
    · cases message <;> exact hterm
    · split <;> exact hterm
    · exact hterm
  | matching =>
    rw [step, if_neg (by simp [hterm])]
    dsimp only [stepMatching]
    split
    · rename_i todo _
      unfold execute
      split
      · exact hterm
      · split <;> exact hterm
      · split <;> exact hterm
      · exact hterm
    · exact hterm
  | marketData delivered =>
    rw [step, if_neg (by simp [hterm])]
    dsimp only [stepMarketData]
    split <;> exact hterm

/-- The inventory thread goes on if it has something to do. -/
lemma inventory_goes_on (hthrow : s.NoThrow) (hrunning : s.inventoryThread ≠ .finished)
    (h : s.matchingEngineFinished = true ∨ s.trades.items ≠ []) : s.GoesOn .inventory := by
  have hterm := hthrow.terminated
  cases hi : s.inventoryThread with
  | finished => exact absurd hi hrunning
  | popping | checkFlag => exact inventory_polls hterm (by rw [hi]; rfl) hrunning h
  | working trade =>
    have hnext := hthrow .inventory
    have hstep : (s.step .inventory).1 = s.settleTrade trade := by
      rw [step, if_neg (by simp [hterm])]
      dsimp only [stepInventory]
      rw [hi]
    refine ⟨nofun, .inl ?_⟩
    rw [hstep] at hnext ⊢
    unfold settleTrade at hnext ⊢
    dsimp only at hnext ⊢
    split_ifs at hnext ⊢
    exact .settles hi

/-- The market-data thread goes on if it has something to do. -/
lemma marketData_goes_on (hterm : s.terminated = false) (hrunning : s.marketDataThread ≠ .finished)
    (h : s.matchingEngineFinished = true ∨ s.marketData.items ≠ []) :
    s.GoesOn (.marketData true) := by
  cases hd : s.marketDataThread with
  | finished => exact absurd hd hrunning
  | popping | checkFlag => exact marketData_polls hterm (by rw [hd]; rfl) hrunning h
  | working event =>
    have hstep : (s.step (.marketData true)).1 = { s with marketDataThread := .popping } := by
      rw [step, if_neg (by simp [hterm])]
      dsimp only [stepMarketData]
      rw [hd]
    refine ⟨nofun, .inl ?_⟩
    rw [hstep]
    exact .sends hd

/-- The matching-engine thread goes on if it has something to do, or one of the threads does whose
queues it waits for. -/
lemma matching_goes_on (hmarketData : 1 ≤ c.marketData) (htrades : 1 ≤ c.trades) (ho : s.Ordered)
    (hthrow : s.NoThrow) (hrunning : s.matchingThread ≠ .finished)
    (h : s.gatewayFinished = true ∨ s.inbound.items ≠ []) : ∃ a, s.GoesOn a := by
  have hterm := hthrow.terminated
  cases hm : s.matchingThread with
  | finished => exact absurd hm hrunning
  | popping | checkFlag => exact ⟨.matching, matching_polls hterm (by rw [hm]; rfl) hrunning h⟩
  | working todo =>
    have hstep : (s.step .matching).1 = s.execute todo := by
      rw [step, if_neg (by simp [hterm])]
      dsimp only [stepMatching]
      rw [hm]
    have hgoes : Effect s (s.execute todo) → s.GoesOn .matching := fun heffect =>
      ⟨nofun, .inl (hstep ▸ heffect)⟩
    cases todo with
    | nil => exact ⟨.matching, hgoes (.completes hm)⟩
    | cons action todo =>
      cases action with
      | commit router => exact ⟨.matching, hgoes (.commits hm)⟩
      | publish event =>
        cases hpush : s.marketData.push event with
        | none =>
          refine ⟨.marketData true, ?_⟩
          refine marketData_goes_on hterm (ho.marketData_of_matching hrunning) ?_
          exact .inr (BoundedFifo.items_ne_nil_of_push hmarketData hpush)
        | some q =>
          refine ⟨.matching, hgoes ?_⟩
          dsimp only [execute]
          rw [hpush]
          exact .publishes hm hpush
      | queueTrade trade =>
        cases hpush : s.trades.push trade with
        | none =>
          refine ⟨.inventory, inventory_goes_on hthrow (ho.inventory_of_matching hrunning) ?_⟩
          exact .inr (BoundedFifo.items_ne_nil_of_push htrades hpush)
        | some q =>
          refine ⟨.matching, hgoes ?_⟩
          dsimp only [execute]
          rw [hpush]
          exact .queuesTrade hm hpush

/-- A gateway thread that has not ended goes on, or one of the threads it waits for does. -/
lemma gateway_goes_on (hinbound : 1 ≤ c.inbound) (hmarketData : 1 ≤ c.marketData)
    (htrades : 1 ≤ c.trades) (ho : s.Ordered) (hthrow : s.NoThrow)
    (hrunning : s.gatewayThread ≠ .finished) : ∃ a, s.GoesOn a := by
  have hterm := hthrow.terminated
  have hstep : (s.step (.gateway none)).1 = s.stepGateway none := by
    rw [step, if_neg (by simp [hterm])]
  have hgoes : Effect s (s.stepGateway none) → ∃ a, s.GoesOn a := fun heffect =>
    ⟨.gateway none, nofun, .inl (hstep ▸ heffect)⟩
  unfold stepGateway at hgoes
  cases hg : s.gatewayThread with
  | finished => exact absurd hg hrunning
  | loopHead =>
    rw [hg] at hgoes
    dsimp only at hgoes
    cases hflag : s.running with
    | true =>
      rw [if_pos hflag] at hgoes
      exact hgoes (.gatewayServes hg hflag)
    | false =>
      rw [if_neg (by simp [hflag])] at hgoes
      exact hgoes (.gatewayLeaves hg hflag)
  | serving =>
    rw [hg] at hgoes
    exact hgoes (.gatewayReturns hg)
  | dispatching cmd =>
    rw [hg] at hgoes
    dsimp only at hgoes
    cases hpush : s.inbound.push cmd with
    | none =>
      -- the inbound queue is full, so its consumer, which has not ended, has something to take
      refine matching_goes_on hmarketData htrades ho hthrow (ho.matching_of_gateway hrunning) ?_
      exact .inr (BoundedFifo.items_ne_nil_of_push hinbound hpush)
    | some q =>
      rw [hpush] at hgoes
      exact hgoes (.dispatches hg hpush)

/-- A move of the main thread is a step of the exchange. -/
lemma main_goes_on (hterm : s.terminated = false) {s' : State c} (hstep : s.stepMain = s')
    (hmain : MainMove s s') : ∃ a, s.GoesOn a := by
  refine ⟨.main, nofun, .inl ?_⟩
  have hnext : (s.step .main).1 = s.stepMain := by
    rw [step, if_neg (by simp [hterm])]
  rw [hnext, hstep]
  exact .main hmain

/-- Some thread goes on as long as the main thread has not reached the snapshot. -/
lemma exists_goes_on (hinbound : 1 ≤ c.inbound) (hmarketData : 1 ≤ c.marketData)
    (htrades : 1 ≤ c.trades) (ho : s.Ordered) (hf : s.Flagged) (hthrow : s.NoThrow)
    (hshutdown : s.shutdownRequested = true) (hmain : s.mainThread ≠ .writeSnapshot) :
    ∃ a, s.GoesOn a := by
  have hterm := hthrow.terminated
  cases hm : s.mainThread with
  | writeSnapshot => exact absurd hm hmain
  | awaitSignal =>
    refine main_goes_on hterm ?_ (.seesSignal hm)
    unfold stepMain
    rw [hm]
    exact if_pos hshutdown
  | stopGateway =>
    refine main_goes_on hterm ?_ (.stopsGateway hm)
    unfold stepMain
    rw [hm]
  | joinGateway =>
    by_cases hjoin : s.gatewayThread = .finished
    · refine main_goes_on hterm ?_ (.joinsGateway hm hjoin)
      unfold stepMain
      rw [hm]
      exact if_pos hjoin
    · exact gateway_goes_on hinbound hmarketData htrades ho hthrow hjoin
  | setGatewayFinished =>
    refine main_goes_on hterm ?_ (.setsGatewayFinished hm)
    unfold stepMain
    rw [hm]
  | joinMatching =>
    by_cases hjoin : s.matchingThread = .finished
    · refine main_goes_on hterm ?_ (.joinsMatching hm hjoin)
      unfold stepMain
      rw [hm]
      exact if_pos hjoin
    · have hflag : s.gatewayFinished = true := hf.gatewayFinished (by rw [hm]; decide)
      exact matching_goes_on hmarketData htrades ho hthrow hjoin (.inl hflag)
  | setMatchingEngineFinished =>
    refine main_goes_on hterm ?_ (.setsMatchingEngineFinished hm)
    unfold stepMain
    rw [hm]
  | joinInventory =>
    by_cases hjoin : s.inventoryThread = .finished
    · refine main_goes_on hterm ?_ (.joinsInventory hm hjoin)
      unfold stepMain
      rw [hm]
      exact if_pos hjoin
    · have hflag : s.matchingEngineFinished = true :=
        hf.matchingEngineFinished (by rw [hm]; decide)
      exact ⟨.inventory, inventory_goes_on hthrow hjoin (.inl hflag)⟩
  | joinMarketData =>
    by_cases hjoin : s.marketDataThread = .finished
    · refine main_goes_on hterm ?_ (.joinsMarketData hm hjoin)
      unfold stepMain
      rw [hm]
      exact if_pos hjoin
    · have hflag : s.matchingEngineFinished = true :=
        hf.matchingEngineFinished (by rw [hm]; decide)
      exact ⟨.marketData true, marketData_goes_on hterm hjoin (.inl hflag)⟩

/-- While the main thread waits for the matching-engine thread, the gateway has ended and the three
consumers are about to pop from empty queues, no step does something. -/
lemma not_effect_of_empty (hmain : s.mainThread = .joinMatching)
    (hgateway : s.gatewayThread = .finished)
    (hmatching : s.matchingThread = .popping ∧ s.inbound.items = [])
    (hinventory : s.inventoryThread = .popping ∧ s.trades.items = [])
    (hmarketData : s.marketDataThread = .popping ∧ s.marketData.items = []) (s' : State c) :
    ¬ Effect s s' := by
  obtain ⟨hm, hinbound⟩ := hmatching
  obtain ⟨hi, htrades⟩ := hinventory
  obtain ⟨hd, hevents⟩ := hmarketData
  intro h
  cases h with
  | main hmove =>
    cases hmove with
    | joinsMatching _ hjoin => rw [hm] at hjoin; cases hjoin
    | seesSignal hphase | stopsGateway hphase | joinsGateway hphase | setsGatewayFinished hphase
    | setsMatchingEngineFinished hphase | joinsInventory hphase | joinsMarketData hphase =>
      rw [hmain] at hphase
      cases hphase
  | gatewayServes hg | gatewayLeaves hg | gatewayReturns hg | dispatches hg =>
    rw [hgateway] at hg
    cases hg
  | publishes hworking | queuesTrade hworking | commits hworking | completes hworking =>
    rw [hm] at hworking
    cases hworking
  | settles hworking => rw [hi] at hworking; cases hworking
  | sends hworking => rw [hd] at hworking; cases hworking
  | matchingPolls hacts => exact PollLoop.not_acts_of_empty hm hinbound hacts
  | inventoryPolls hacts => exact PollLoop.not_acts_of_empty hi htrades hacts
  | marketDataPolls hacts => exact PollLoop.not_acts_of_empty hd hevents hacts

/-- **Backpressure and shutdown cannot deadlock.**  Let every queue have room for an element.  After
any interleaving, no queue's consumer has ended while its producer runs; and if shutdown has been
requested, the main thread has not reached the snapshot and no thread throws, then some thread does
something in its next step or, if it is a consumer at a failed pop or behind one, in the step after
that. -/
theorem shutdown_never_deadlocks (c : Capacities)
    (hc : 1 ≤ c.inbound ∧ 1 ≤ c.marketData ∧ 1 ≤ c.trades) (actions : List Action) :
    ((after c actions).matchingThread = .finished → (after c actions).gatewayThread = .finished) ∧
      ((after c actions).inventoryThread = .finished →
        (after c actions).matchingThread = .finished) ∧
      ((after c actions).marketDataThread = .finished →
        (after c actions).matchingThread = .finished) ∧
      ((after c actions).NoThrow → (after c actions).shutdownRequested = true →
        (after c actions).mainThread ≠ .writeSnapshot → ∃ a, (after c actions).GoesOn a) := by
  have ho := ordered_after c actions
  obtain ⟨hinbound, hmarketData, htrades⟩ := hc
  refine ⟨fun hm => ?_, fun hi => ?_, fun hd => ?_, fun hthrow hshutdown hmain => ?_⟩
  · exact not_not.mp fun hg => ho.matching_of_gateway hg hm
  · exact not_not.mp fun hm => ho.inventory_of_matching hm hi
  · exact not_not.mp fun hm => ho.marketData_of_matching hm hd
  · exact exists_goes_on hinbound hmarketData htrades ho (flagged_after c actions) hthrow hshutdown
      hmain

end Moves

/-- With queues of one element: the gateway waits for room for a second command, and the
matching-engine thread has just failed to pop. -/
theorem shutdown_never_deadlocks_full_queue :
    let c : Capacities := ⟨1, 1, 1⟩
    let ask : InboundCommand := .add ⟨1, 1, .aapl, .sell, 100, 10⟩
    let actions : List Action :=
      [.matching, .gateway none, .gateway (some ask), .gateway none, .gateway (some ask), .signal,
        .main, .main]
    let s := @after PriceSum.int64 c actions
    s.inbound.items = [ask] ∧ s.mainThread = .joinGateway ∧ ∃ a, @GoesOn c PriceSum.int64 s a := by
  intro c ask actions s
  refine ⟨by decide +kernel, by decide +kernel, ?_⟩
  have h := @shutdown_never_deadlocks PriceSum.int64 c (by decide) actions
  have hthrow := @noThrow_of_idle c PriceSum.int64 s (by decide +kernel) (by decide +kernel)
  exact h.2.2.2 hthrow (by decide +kernel) (by decide +kernel)

/-- Some thread may need its second step.  When the gateway has been joined and the three other
threads are about to pop from their empty queues, no step of any thread does something. -/
theorem no_effect_at_failed_pop :
    let s := @after PriceSum.int64 .exchange [.signal, .main, .main, .gateway none, .main, .main]
    @NoThrow .exchange PriceSum.int64 s ∧ s.shutdownRequested = true ∧
      s.mainThread = .joinMatching ∧ ∀ s', ¬ @Effect .exchange PriceSum.int64 s s' := by
  intro s
  have hmain : s.mainThread = .joinMatching := by decide +kernel
  refine ⟨?_, by decide +kernel, hmain, fun s' => ?_⟩
  · exact @noThrow_of_idle .exchange PriceSum.int64 s (by decide +kernel) (by decide +kernel)
  · exact @not_effect_of_empty .exchange PriceSum.int64 s hmain (by decide +kernel) ⟨rfl, rfl⟩
      ⟨rfl, rfl⟩ ⟨rfl, rfl⟩ s'

end State

end ToyExchange
