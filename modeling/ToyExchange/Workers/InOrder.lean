import ToyExchange.Workers.Pipeline

/-!
# Nothing is reordered, duplicated or invented

Whatever the interleaving, the queues carry what a sequential run of the router on the commands
taken so far would produce, in its order.  The invariant `InOrder` speaks of what is still to be
done: the events pushed so far, followed by those the matching-engine thread has yet to push for
its command, are all the events of the commands taken, and likewise for the trades and for the
router itself.

Within a command, a trade's event is pushed and then the trade, so between the two pushes one
trade is owed to the inventory queue.  `Follows owed todo` reads off what remains of a command
that it pays what is owed first and pairs the rest.
-/

namespace ToyExchange

/-- The trades among events. -/
def tradeEvents (events : List MarketEvent) : List Trade :=
  events.filterMap fun
    | .trade t => some t
    | _ => none

namespace EngineAction

/-- The event an action pushes. -/
def event? : EngineAction → Option MarketEvent
  | .publish event => some event
  | _ => none

/-- The trade an action pushes. -/
def trade? : EngineAction → Option Trade
  | .queueTrade trade => some trade
  | _ => none

/-- The router after the actions. -/
def committed : MatchingEngineRouter → List EngineAction → MatchingEngineRouter
  | r, [] => r
  | _, .commit r :: todo => committed r todo
  | r, .publish _ :: todo => committed r todo
  | r, .queueTrade _ :: todo => committed r todo

/-- The actions first push the trade that is owed, if any, and from then on each trade right after
its event. -/
def Follows : Option Trade → List EngineAction → Prop
  | none, [] => True
  | none, .publish (.trade t) :: todo => Follows (some t) todo
  | none, .publish (.orderAdd _) :: todo => Follows none todo
  | none, .publish (.orderCancel _) :: todo => Follows none todo
  | none, .commit _ :: todo => Follows none todo
  | some t, .queueTrade t' :: todo => t = t' ∧ Follows none todo
  | _, _ => False

/-- The trades of an add, each after its event. -/
lemma follows_trades (trades : List Trade) {todo : List EngineAction} (h : Follows none todo) :
    Follows none ((trades.flatMap fun t => [.publish (.trade t), .queueTrade t]) ++ todo) := by
  induction trades with
  | nil => exact h
  | cons t trades ih => exact ⟨rfl, ih⟩

lemma committed_trades (r : MatchingEngineRouter) (trades : List Trade)
    (todo : List EngineAction) :
    committed r ((trades.flatMap fun t => [.publish (.trade t), .queueTrade t]) ++ todo) =
      committed r todo := by
  induction trades with
  | nil => rfl
  | cons t trades ih => exact ih

lemma events_trades (trades : List Trade) :
    (trades.flatMap fun t => [publish (.trade t), queueTrade t]).filterMap event? =
      trades.map .trade := by
  induction trades with
  | nil => rfl
  | cons t trades ih =>
    rw [List.flatMap_cons, List.filterMap_append, ih]
    rfl

lemma trades_trades (trades : List Trade) :
    (trades.flatMap fun t => [publish (.trade t), queueTrade t]).filterMap trade? = trades := by
  induction trades with
  | nil => rfl
  | cons t trades ih =>
    rw [List.flatMap_cons, List.filterMap_append, ih]
    rfl

end EngineAction

section Program

variable [PriceSum]

open EngineAction

/-- A command pushes the events published for it. -/
lemma events_program (r : MatchingEngineRouter) (cmd : InboundCommand) :
    (program r cmd).filterMap event? = r.publish cmd := by
  cases cmd with
  | add order =>
    have hhead : event? (.publish (.orderAdd order)) = some (.orderAdd order) := rfl
    rw [program, MatchingEngineRouter.publish, List.cons_append, List.filterMap_cons_some hhead,
      List.filterMap_append, events_trades]
    simp [event?]
  | cancel request => rfl

/-- A command pushes the trades it causes. -/
lemma trades_program (r : MatchingEngineRouter) (cmd : InboundCommand) :
    (program r cmd).filterMap trade? = (r.step cmd).2 := by
  cases cmd with
  | add order =>
    rw [program, MatchingEngineRouter.step, List.cons_append, List.filterMap_cons_none rfl,
      List.filterMap_append, trades_trades]
    simp [trade?]
  | cancel request => rfl

/-- A command leaves the router in the state the router's own step gives. -/
lemma committed_program (r : MatchingEngineRouter) (cmd : InboundCommand) :
    committed r (program r cmd) = (r.step cmd).1 := by
  cases cmd with
  | add order => exact committed_trades r _ _
  | cancel request => rfl

/-- Each trade of a command is pushed right after its event. -/
lemma follows_program (r : MatchingEngineRouter) (cmd : InboundCommand) :
    Follows none (program r cmd) := by
  cases cmd with
  | add order =>
    have hend : Follows none [.commit (r.onOrderAdd order).1] := trivial
    exact follows_trades (r.onOrderAdd order).2 hend
  | cancel request => trivial

end Program

namespace State

variable {c : Capacities}

/-- What remains of the command in hand. -/
def todo (s : State c) : List EngineAction := s.matchingThread.work?.getD []

variable [PriceSum]

/-- The queues carry what a sequential run produces. -/
structure InOrder (s : State c) : Prop where
  /-- The events pushed and the events to come are those of the commands taken. -/
  events : s.marketData.pushed ++ s.todo.filterMap EngineAction.event? = feedOf s.inbound.popped
  /-- The trades pushed and the trades to come are those of the commands taken. -/
  trades : s.trades.pushed ++ s.todo.filterMap EngineAction.trade? =
    MatchingEngineRouter.tradesOf s.inbound.popped
  /-- The router is, or is about to be, the one the commands taken lead to. -/
  router : EngineAction.committed s.router s.todo = MatchingEngineRouter.after s.inbound.popped
  /-- At most the trade of the last event is still owed to the inventory queue. -/
  owed : ∃ owed : Option Trade, EngineAction.Follows owed s.todo ∧
    tradeEvents s.marketData.pushed = s.trades.pushed ++ owed.toList
  /-- The trades popped are the settled ones and the one in hand. -/
  settling : s.settled.map Prod.fst ++ s.inventoryThread.work?.toList = s.trades.popped

lemma inOrder_init : (init c).InOrder where
  events := rfl
  trades := rfl
  router := rfl
  owed := ⟨none, trivial, rfl⟩
  settling := rfl

omit [PriceSum] in
lemma todo_of_idle {s : State c} (h : s.matchingThread.work? = none) : s.todo = [] := by
  rw [todo, h]
  rfl

omit [PriceSum] in
lemma todo_of_working {s : State c} {l : List EngineAction} (h : s.matchingThread = .working l) :
    s.todo = l := by
  rw [todo, h]
  rfl

/-- Between commands the router and what was pushed are those of the commands taken, so the next
command may be started. -/
lemma inOrder_takes {s : State c} (h : s.InOrder) (hidle : s.matchingThread.work? = none)
    {cmd : InboundCommand} {q : BoundedFifo InboundCommand c.inbound}
    (hpop : s.inbound.pop = some (cmd, q)) :
    InOrder { s with matchingThread := .working (program s.router cmd), inbound := q } := by
  obtain ⟨hevents, htrades, hrouter, ⟨owed, hfollows, howed⟩, hsettling⟩ := h
  rw [todo_of_idle hidle] at hevents htrades hrouter hfollows
  rw [List.filterMap_nil, List.append_nil] at hevents htrades
  have hpopped := (BoundedFifo.pop_eq_some hpop).2.1
  have hnone : owed = none := by
    cases owed with
    | none => rfl
    | some t => exact hfollows.elim
  have hcurrent : s.router = MatchingEngineRouter.after s.inbound.popped := hrouter
  refine ⟨?_, ?_, ?_, ⟨none, follows_program s.router cmd, ?_⟩, hsettling⟩
  · change s.marketData.pushed ++ (program s.router cmd).filterMap EngineAction.event? =
      feedOf q.popped
    rw [events_program, hpopped, feedOf_concat, hevents, hcurrent]
  · change s.trades.pushed ++ (program s.router cmd).filterMap EngineAction.trade? =
      MatchingEngineRouter.tradesOf q.popped
    rw [trades_program, hpopped, MatchingEngineRouter.tradesOf_concat, htrades, hcurrent]
  · change EngineAction.committed s.router (program s.router cmd) =
      MatchingEngineRouter.after q.popped
    rw [committed_program, hpopped, MatchingEngineRouter.after_concat, hcurrent]
  · rw [hnone] at howed
    exact howed

/-- Pushing an event takes it from what is to come; the event of a trade makes the trade owed. -/
lemma inOrder_publishes {s : State c} (h : s.InOrder) {event : MarketEvent}
    {todo : List EngineAction} {q : BoundedFifo MarketEvent c.marketData}
    (hm : s.matchingThread = .working (.publish event :: todo))
    (hpush : s.marketData.push event = some q) :
    InOrder { s with marketData := q, matchingThread := .working todo } := by
  obtain ⟨hevents, htrades, hrouter, ⟨owed, hfollows, howed⟩, hsettling⟩ := h
  rw [todo_of_working hm] at hevents htrades hrouter hfollows
  have hpushed := (BoundedFifo.push_eq_some hpush).1
  have hnone : owed = none := by
    cases owed with
    | none => rfl
    | some t => exact hfollows.elim
  subst hnone
  rw [Option.toList_none, List.append_nil] at howed
  refine ⟨?_, htrades, hrouter, ?_, hsettling⟩
  · change q.pushed ++ todo.filterMap EngineAction.event? = feedOf s.inbound.popped
    rw [hpushed, List.append_assoc, ← hevents]
    rfl
  · change ∃ owed, EngineAction.Follows owed todo ∧
      tradeEvents q.pushed = s.trades.pushed ++ owed.toList
    have hsplit : tradeEvents q.pushed = s.trades.pushed ++ tradeEvents [event] := by
      rw [hpushed, ← howed]
      exact List.filterMap_append
    cases event with
    | trade t => exact ⟨some t, hfollows, hsplit⟩
    | orderAdd order => exact ⟨none, hfollows, hsplit⟩
    | orderCancel request => exact ⟨none, hfollows, hsplit⟩

/-- Pushing a trade pays what is owed. -/
lemma inOrder_queuesTrade {s : State c} (h : s.InOrder) {trade : Trade}
    {todo : List EngineAction} {q : BoundedFifo Trade c.trades}
    (hm : s.matchingThread = .working (.queueTrade trade :: todo))
    (hpush : s.trades.push trade = some q) :
    InOrder { s with trades := q, matchingThread := .working todo } := by
  obtain ⟨hevents, htrades, hrouter, ⟨owed, hfollows, howed⟩, hsettling⟩ := h
  rw [todo_of_working hm] at hevents htrades hrouter hfollows
  obtain ⟨hpushed, hpopped, -⟩ := BoundedFifo.push_eq_some hpush
  refine ⟨hevents, ?_, hrouter, ⟨none, ?_, ?_⟩, hsettling.trans hpopped.symm⟩
  · change q.pushed ++ todo.filterMap EngineAction.trade? =
      MatchingEngineRouter.tradesOf s.inbound.popped
    rw [hpushed, List.append_assoc, ← htrades]
    rfl
  · cases owed with
    | none => exact hfollows.elim
    | some t => exact hfollows.2
  · cases owed with
    | none => exact hfollows.elim
    | some t =>
      obtain rfl := hfollows.1
      change tradeEvents s.marketData.pushed = q.pushed ++ []
      rw [hpushed, List.append_nil]
      exact howed

/-- A return of the engine and the end of a command push nothing. -/
lemma inOrder_commits {s : State c} (h : s.InOrder) {router : MatchingEngineRouter}
    {todo : List EngineAction} (hm : s.matchingThread = .working (.commit router :: todo)) :
    InOrder { s with router := router, matchingThread := .working todo } := by
  obtain ⟨hevents, htrades, hrouter, ⟨owed, hfollows, howed⟩, hsettling⟩ := h
  rw [todo_of_working hm] at hevents htrades hrouter hfollows
  refine ⟨hevents, htrades, hrouter, ⟨owed, ?_, howed⟩, hsettling⟩
  cases owed with
  | none => exact hfollows
  | some t => exact hfollows.elim

/-- The order is kept by a change of where the matching-engine thread is, if what remains to be
done is the same. -/
lemma inOrder_of_todo_eq {s : State c} (h : s.InOrder) {l : PollLoop (List EngineAction)}
    (hl : l.work?.getD [] = s.todo) : InOrder { s with matchingThread := l } := by
  obtain ⟨hevents, htrades, hrouter, howed, hsettling⟩ := h
  rw [← hl] at hevents htrades hrouter howed
  exact ⟨hevents, htrades, hrouter, howed, hsettling⟩

/-- The polls of the matching-engine thread keep the order. -/
lemma inOrder_matchingPolls {s : State c} (h : s.InOrder)
    {l : PollLoop (List EngineAction)} {q : BoundedFifo InboundCommand c.inbound}
    (hidle : s.matchingThread.work? = none)
    (hpoll : PollLoop.Polls (program s.router) s.gatewayFinished s.matchingThread s.inbound l q) :
    InOrder { s with matchingThread := l, inbound := q } := by
  have htodo := todo_of_idle hidle
  cases hpoll with
  | takes _ hpop => exact inOrder_takes h hidle hpop
  | misses => exact inOrder_of_todo_eq h htodo.symm
  | leaves => exact inOrder_of_todo_eq h htodo.symm
  | retries => exact inOrder_of_todo_eq h htodo.symm
  | rests => exact h

/-- The polls of the inventory thread keep the order: a popped trade is in hand. -/
lemma inOrder_inventoryPolls {s : State c} (h : s.InOrder) {l : PollLoop Trade}
    {q : BoundedFifo Trade c.trades} (hidle : s.inventoryThread.work? = none)
    (hpoll : PollLoop.Polls id s.matchingEngineFinished s.inventoryThread s.trades l q) :
    InOrder { s with inventoryThread := l, trades := q } := by
  have hpushed := hpoll.pushed_eq
  obtain ⟨hevents, htrades, hrouter, howed, hsettling⟩ := h
  rw [← hpushed] at htrades howed
  refine ⟨hevents, htrades, hrouter, howed, ?_⟩
  rw [hidle, Option.toList_none, List.append_nil] at hsettling
  cases hpoll with
  | @takes trade _ _ hpop =>
    change s.settled.map Prod.fst ++ [trade] = q.popped
    rw [(BoundedFifo.pop_eq_some hpop).2.1, hsettling]
  | misses | leaves | retries =>
    change s.settled.map Prod.fst ++ [] = s.trades.popped
    rw [List.append_nil, hsettling]
  | rests =>
    change s.settled.map Prod.fst ++ s.inventoryThread.work?.toList = s.trades.popped
    rw [hidle, Option.toList_none, List.append_nil, hsettling]

/-- Settling the trade in hand keeps the order. -/
lemma inOrder_settles {s : State c} (h : s.InOrder) {trade : Trade}
    (hi : s.inventoryThread = .working trade) (registry : UserRegistry) (mid : Option ℤ) :
    InOrder { s with
      registry := registry
      settled := s.settled ++ [(trade, mid)]
      inventoryThread := .popping } := by
  refine ⟨h.events, h.trades, h.router, h.owed, ?_⟩
  have hsettling := h.settling
  rw [hi] at hsettling
  change (s.settled ++ [(trade, mid)]).map Prod.fst ++ [] = s.trades.popped
  rw [List.map_append, List.append_nil]
  exact hsettling

/-- Every move keeps the order. -/
theorem inOrder_move {s s' : State c} (h : s.InOrder) (hmove : Move s s') : s'.InOrder := by
  cases hmove with
  | waits | signal | gatewayTurns | throws | sends =>
    exact ⟨h.events, h.trades, h.router, h.owed, h.settling⟩
  | main hmain =>
    obtain ⟨_, _, _, _, rfl⟩ := hmain.exists_eq
    exact ⟨h.events, h.trades, h.router, h.owed, h.settling⟩
  | dispatches _ hpush =>
    have hpopped := (BoundedFifo.push_eq_some hpush).2.1
    refine ⟨?_, ?_, ?_, h.owed, h.settling⟩
    · exact h.events.trans (congrArg feedOf hpopped.symm)
    · exact h.trades.trans (congrArg MatchingEngineRouter.tradesOf hpopped.symm)
    · exact h.router.trans (congrArg MatchingEngineRouter.after hpopped.symm)
  | matchingPolls hidle hpoll => exact inOrder_matchingPolls h hidle hpoll
  | publishes hm hpush => exact inOrder_publishes h hm hpush
  | queuesTrade hm hpush => exact inOrder_queuesTrade h hm hpush
  | commits hm => exact inOrder_commits h hm
  | completes hm => exact inOrder_of_todo_eq h (todo_of_working hm).symm
  | inventoryPolls hidle hpoll => exact inOrder_inventoryPolls h hidle hpoll
  | settles hi _ => exact inOrder_settles h hi _ _
  | marketDataPolls _ hpoll =>
    have hpushed := hpoll.pushed_eq
    obtain ⟨hevents, htrades, hrouter, howed, hsettling⟩ := h
    rw [← hpushed] at hevents howed
    exact ⟨hevents, htrades, hrouter, howed, hsettling⟩

/-- The order holds at every point of every interleaving. -/
theorem inOrder_after (c : Capacities) (actions : List Action) : (after c actions).InOrder :=
  after_invariant inOrder_init (fun _ _ => inOrder_move) actions

/-- **Nothing is reordered, duplicated or invented.**  At every point of every interleaving, for
queues of any capacities: the commands taken by the matching engine are a beginning of those
pushed by the gateway; the events popped by the market-data thread are a beginning of the events
published, command by command, for the commands taken; the trades settled are a beginning of the
trades of a sequential run on these commands; and the trades pushed to the inventory queue are
those whose events were pushed to the market-data queue, but for the last one at most. -/
theorem pipeline_in_order (c : Capacities) (actions : List Action) :
    (after c actions).inbound.popped <+: (after c actions).inbound.pushed ∧
      (after c actions).marketData.popped <+: feedOf (after c actions).inbound.popped ∧
      (after c actions).settled.map Prod.fst <+:
        MatchingEngineRouter.tradesOf (after c actions).inbound.popped ∧
      (tradeEvents (after c actions).marketData.pushed = (after c actions).trades.pushed ∨
        ∃ last, tradeEvents (after c actions).marketData.pushed =
          (after c actions).trades.pushed ++ [last]) := by
  have h := inOrder_after c actions
  refine ⟨BoundedFifo.popped_prefix _, ?_, ?_, ?_⟩
  · exact (BoundedFifo.popped_prefix _).trans ⟨_, h.events⟩
  · have hsettled : (after c actions).settled.map Prod.fst <+: (after c actions).trades.popped :=
      ⟨_, h.settling⟩
    exact hsettled.trans ((BoundedFifo.popped_prefix _).trans ⟨_, h.trades⟩)
  · obtain ⟨owed, -, howed⟩ := h.owed
    cases owed with
    | none =>
      left
      rw [howed]
      exact List.append_nil _
    | some last => exact .inr ⟨last, howed⟩

end State

end ToyExchange
