import ToyExchange.Foundations.Fairness
import ToyExchange.Workers.Turns
import Mathlib.Data.Prod.Lex

/-!
# How far the exchange is from its end

A rank of the states, and which threads can lower it.

The rank has three parts, the first of which counts most: how far the main thread and the gateway
thread have to go, with the commands in the inbound queue (`ahead`); what is left of the command in
hand (`inHand`); and what the consumers behind the matching engine have to do (`behind`).  A command
that is taken adds to what is in hand but is no longer in the queue, and what the matching-engine
thread pushes adds to what is behind but is no longer in hand.

A thread is enabled if its turn lowers the rank.  While the exchange is shutting down, somebody is
enabled (`exists_enabled`).  A turn that reads no message lowers the rank, or it was not the turn of
an enabled thread and all of them stay enabled (`Turn.progresses`).
-/

namespace ToyExchange

/-- The threads of the exchange. -/
inductive Thread where
  | main
  | gateway
  | matching
  | inventory
  | marketData

/-- The thread whose turn it is. -/
def Action.thread? : Action → Option Thread
  | .signal => none
  | .main => some .main
  | .gateway _ => some .gateway
  | .matching => some .matching
  | .inventory => some .inventory
  | .marketData _ => some .marketData

/-- No message is offered to the gateway, whether or not it would read it. -/
def Action.Quiet (a : Action) : Prop := ∀ cmd, a ≠ .gateway (some cmd)

namespace State

variable {c : Capacities}

/-! ## The rank -/

/-- How far the gateway thread has to go.  While the gateway runs, only the command in hand
counts. -/
def gatewayAhead (s : State c) : ℕ :=
  match s.gatewayThread with
  | .loopHead => if s.running then 0 else 1
  | .serving => if s.running then 0 else 2
  | .dispatching _ => if s.running then 1 else 3
  | .finished => 0

/-- How far the main thread and the gateway thread have to go, and the commands that wait. -/
def ahead (s : State c) : ℕ :=
  2 * (4 * (8 - s.mainThread.rank) + s.gatewayAhead) + s.inbound.items.length

/-- What is left of the command in hand. -/
def inHand (s : State c) : ℕ :=
  match s.matchingThread with
  | .working todo => todo.length + 1
  | _ => 0

/-- What is left to do for the consumers behind the matching engine, and how far the
matching-engine thread is from taking a command. -/
def behind (s : State c) : ℕ :=
  s.inventoryThread.debt s.matchingEngineFinished s.trades +
    s.marketDataThread.debt s.matchingEngineFinished s.marketData +
    s.matchingThread.distance s.gatewayFinished s.inbound

/-- The rank of a state. -/
def rank (s : State c) : ℕ ×ₗ ℕ ×ₗ ℕ := toLex (s.ahead, toLex (s.inHand, s.behind))

section Rank

variable {s s' : State c}

lemma rank_lt_of_ahead (h : s'.ahead < s.ahead) : s'.rank < s.rank :=
  Prod.Lex.toLex_lt_toLex.mpr (.inl h)

lemma rank_lt_of_inHand (ha : s'.ahead = s.ahead) (h : s'.inHand < s.inHand) : s'.rank < s.rank :=
  Prod.Lex.toLex_lt_toLex.mpr (.inr ⟨ha, Prod.Lex.toLex_lt_toLex.mpr (.inl h)⟩)

lemma rank_lt_of_behind (ha : s'.ahead = s.ahead) (hi : s'.inHand = s.inHand)
    (h : s'.behind < s.behind) : s'.rank < s.rank :=
  Prod.Lex.toLex_lt_toLex.mpr (.inr ⟨ha, Prod.Lex.toLex_lt_toLex.mpr (.inr ⟨hi, h⟩)⟩)

lemma rank_eq (ha : s'.ahead = s.ahead) (hi : s'.inHand = s.inHand)
    (h : s'.behind = s.behind) : s'.rank = s.rank := by
  unfold rank
  rw [ha, hi, h]

lemma inHand_of_idle (h : s.matchingThread.work? = none) : s.inHand = 0 := by
  unfold inHand
  rcases hm : s.matchingThread with _ | _ | todo | _
  · rfl
  · rfl
  · rw [hm] at h
    cases h
  · rfl

lemma inHand_of_working {todo : List EngineAction} (h : s.matchingThread = .working todo) :
    s.inHand = todo.length + 1 := by
  unfold inHand
  rw [h]

lemma gatewayAhead_le (s : State c) : s.gatewayAhead ≤ 3 := by
  unfold gatewayAhead
  split
  · split_ifs <;> omega
  · split_ifs <;> omega
  · split_ifs <;> omega
  · omega

end Rank

/-! ## Who can go on -/

/-- The threads whose turn would lower the rank. -/
def Enabled (s : State c) : Thread → Prop
  | .main => s.MainReady
  | .gateway =>
    match s.gatewayThread with
    | .loopHead | .serving => s.running = false
    | .dispatching cmd => s.inbound.push cmd ≠ none
    | .finished => False
  | .matching =>
    match s.matchingThread with
    | .working (.publish event :: _) => s.marketData.push event ≠ none
    | .working (.queueTrade trade :: _) => s.trades.push trade ≠ none
    | l => l.Awake s.gatewayFinished s.inbound
  | .inventory => s.inventoryThread.Awake s.matchingEngineFinished s.trades
  | .marketData => s.marketDataThread.Awake s.matchingEngineFinished s.marketData

/-- A matching-engine thread without a push in hand is enabled if it is awake. -/
lemma enabled_matching_of_idle {s : State c} (h : s.matchingThread.work? = none) :
    s.Enabled .matching ↔ s.matchingThread.Awake s.gatewayFinished s.inbound := by
  unfold Enabled
  rcases hm : s.matchingThread with _ | _ | todo | _
  · exact Iff.rfl
  · exact Iff.rfl
  · rw [hm] at h
    cases h
  · exact Iff.rfl

/-- What the main thread waits for comes true once. -/
lemma MainReady.mono {s s' : State c} (h : s.MainReady) (hmain : s'.mainThread = s.mainThread)
    (hsignal : s.shutdownRequested = true → s'.shutdownRequested = true)
    (hg : s.gatewayThread = .finished → s'.gatewayThread = .finished)
    (hm : s.matchingThread = .finished → s'.matchingThread = .finished)
    (hi : s.inventoryThread = .finished → s'.inventoryThread = .finished)
    (hd : s.marketDataThread = .finished → s'.marketDataThread = .finished) : s'.MainReady := by
  unfold MainReady at h ⊢
  rw [hmain]
  split at h
  · exact hsignal h
  · trivial
  · exact hg h
  · trivial
  · exact hm h
  · trivial
  · exact hi h
  · exact hd h
  · exact h

/-- What is known of the states along the schedule. -/
structure ShuttingDown (s : State c) : Prop where
  ordered : s.Ordered
  flagged : s.Flagged
  requested : s.shutdownRequested = true
  /-- The gateway has been told to stop before it is joined. -/
  halted : 2 ≤ s.mainThread.rank → s.running = false

/-! ## Somebody can go on -/

section Enabled

variable {s : State c}

/-- A gateway that has been told to stop and has not ended is enabled, or waits for room. -/
lemma enabled_gateway_or (hinbound : 1 ≤ c.inbound) (hhalted : s.running = false)
    (hg : s.gatewayThread ≠ .finished) : s.Enabled .gateway ∨ s.inbound.items ≠ [] := by
  unfold Enabled
  rcases hgateway : s.gatewayThread with _ | _ | cmd | _
  · exact .inl hhalted
  · exact .inl hhalted
  · by_cases hpush : s.inbound.push cmd = none
    · exact .inr (BoundedFifo.items_ne_nil_of_push hinbound hpush)
    · exact .inl hpush
  · exact absurd hgateway hg

/-- If the matching-engine thread has something to do, then it is enabled or a consumer it waits
for is. -/
lemma exists_enabled_of_matching (hmarketData : 1 ≤ c.marketData) (htrades : 1 ≤ c.trades)
    (ho : s.Ordered) (hm : s.matchingThread ≠ .finished)
    (h : s.gatewayFinished = true ∨ s.inbound.items ≠ []) : ∃ t, s.Enabled t := by
  have hawake : s.matchingThread.Awake s.gatewayFinished s.inbound :=
    PollLoop.awake_of_ne_finished hm h
  rcases hwork : s.matchingThread.work? with _ | todo
  · exact ⟨.matching, (enabled_matching_of_idle hwork).mpr hawake⟩
  · have hmatching := PollLoop.eq_working_of_work? hwork
    rcases todo with _ | ⟨action, todo⟩
    · exact ⟨.matching, by rw [Enabled, hmatching]; trivial⟩
    · rcases action with event | trade | router
      · by_cases hpush : s.marketData.push event = none
        · refine ⟨.marketData, ?_⟩
          exact PollLoop.awake_of_ne_finished (ho.marketData_of_matching hm)
            (.inr (BoundedFifo.items_ne_nil_of_push hmarketData hpush))
        · exact ⟨.matching, by rw [Enabled, hmatching]; exact hpush⟩
      · by_cases hpush : s.trades.push trade = none
        · refine ⟨.inventory, ?_⟩
          exact PollLoop.awake_of_ne_finished (ho.inventory_of_matching hm)
            (.inr (BoundedFifo.items_ne_nil_of_push htrades hpush))
        · exact ⟨.matching, by rw [Enabled, hmatching]; exact hpush⟩
      · exact ⟨.matching, by rw [Enabled, hmatching]; trivial⟩

/-- Somebody is enabled until the main thread has come to the snapshot. -/
lemma exists_enabled (hinbound : 1 ≤ c.inbound) (hmarketData : 1 ≤ c.marketData)
    (htrades : 1 ≤ c.trades) (h : s.ShuttingDown) (hmain : s.mainThread ≠ .writeSnapshot) :
    ∃ t, s.Enabled t := by
  by_cases hready : s.MainReady
  · exact ⟨.main, hready⟩
  unfold MainReady at hready
  -- the main thread waits in one of its joins
  split at hready
  · exact absurd h.requested hready
  · exact absurd trivial hready
  · case _ hphase =>
    have hhalted := h.halted (by rw [hphase]; decide)
    rcases enabled_gateway_or hinbound hhalted hready with henabled | hitems
    · exact ⟨.gateway, henabled⟩
    · exact exists_enabled_of_matching hmarketData htrades h.ordered
        (h.ordered.matching_of_gateway hready) (.inr hitems)
  · exact absurd trivial hready
  · case _ hphase =>
    have hflag := h.flagged.gatewayFinished (by rw [hphase]; decide)
    exact exists_enabled_of_matching hmarketData htrades h.ordered hready (.inl hflag)
  · exact absurd trivial hready
  · case _ hphase =>
    have hflag := h.flagged.matchingEngineFinished (by rw [hphase]; decide)
    exact ⟨.inventory, PollLoop.awake_of_ne_finished hready (.inl hflag)⟩
  · case _ hphase =>
    have hflag := h.flagged.matchingEngineFinished (by rw [hphase]; decide)
    exact ⟨.marketData, PollLoop.awake_of_ne_finished hready (.inl hflag)⟩
  · case _ hphase => exact absurd hphase hmain

end Enabled

/-! ## The rank falls -/

/-- The turn leads to the end, or to a lower rank; or it was not the turn of an enabled thread, and
all of them stay enabled. -/
def Progresses (s : State c) (a : Action) (s' : State c) : Prop :=
  s'.terminated = true ∨ s'.rank < s.rank ∨
    (s'.rank = s.rank ∧ (∀ t, a.thread? = some t → ¬ s.Enabled t) ∧
      ∀ t, s.Enabled t → s'.Enabled t)

section Progress

variable {s s' : State c} {a : Action}

lemma progresses_of_lt (h : s'.rank < s.rank) : Progresses s a s' := .inr (.inl h)

/-- A thread that cannot move. -/
lemma progresses_of_waits {t : Thread} (ha : a.thread? = some t) (h : ¬ s.Enabled t) :
    Progresses s a s := by
  refine .inr (.inr ⟨rfl, fun t' ht' => ?_, fun _ => id⟩)
  obtain rfl := Option.some.inj (ha.symm.trans ht')
  exact h

lemma progresses_signal : Progresses s .signal { s with shutdownRequested := true } := by
  refine .inr (.inr ⟨rfl, nofun, fun t ht => ?_⟩)
  rcases t with _ | _ | _ | _ | _
  · exact MainReady.mono ht rfl (fun _ => rfl) id id id id
  all_goals exact ht

lemma progresses_main (hmain : MainMove s s') : Progresses s .main s' := by
  have hrank := hmain.advances.rank
  have hle : s'.mainThread.rank ≤ 8 := by
    cases s'.mainThread <;> decide
  have hgateway := gatewayAhead_le s'
  obtain ⟨_, _, _, _, rfl⟩ := hmain.exists_eq
  refine progresses_of_lt (rank_lt_of_ahead ?_)
  unfold ahead
  dsimp only at hrank hle ⊢
  omega

/-- While the gateway runs, the moves of its thread between the head and the body of its loop lead
nowhere. -/
lemma progresses_gateway_running (hrunning : s.running = true)
    (hg : s.gatewayThread = .loopHead ∨ s.gatewayThread = .serving) {g : GatewayLoop}
    (hg' : g = .loopHead ∨ g = .serving) (message : Option InboundCommand) :
    Progresses s (.gateway message) { s with gatewayThread := g } := by
  have hnot : ¬ s.Enabled .gateway := by
    unfold Enabled
    rcases hg with hg | hg <;> simp [hg, hrunning]
  have hahead : gatewayAhead { s with gatewayThread := g } = s.gatewayAhead := by
    unfold gatewayAhead
    rcases hg with hg | hg <;> rcases hg' with rfl | rfl <;> simp [hg, hrunning]
  have hne : s.gatewayThread ≠ .finished := by
    rcases hg with hg | hg <;> simp [hg]
  refine .inr (.inr ⟨rank_eq ?_ rfl rfl, ?_, ?_⟩)
  · unfold ahead
    rw [hahead]
  · intro t ht
    obtain rfl := Option.some.inj ht
    exact hnot
  · intro t ht
    rcases t with _ | _ | _ | _ | _
    · exact MainReady.mono ht rfl id (fun h => absurd h hne) id id id
    · exact absurd ht hnot
    all_goals exact ht

/-- A gateway that has been told to stop goes on to its end. -/
lemma progresses_gateway_halted (hrunning : s.running = false) {g : GatewayLoop}
    (hg : s.gatewayThread = .loopHead ∧ g = .finished ∨
      s.gatewayThread = .serving ∧ g = .loopHead) (message : Option InboundCommand) :
    Progresses s (.gateway message) { s with gatewayThread := g } := by
  refine progresses_of_lt (rank_lt_of_ahead ?_)
  unfold ahead gatewayAhead
  rcases hg with ⟨hg, rfl⟩ | ⟨hg, rfl⟩ <;> simp [hg, hrunning]

/-- A command is pushed: the queue is longer by one, but the gateway thread has come further. -/
lemma progresses_dispatches {cmd : InboundCommand} {q : BoundedFifo InboundCommand c.inbound}
    (hg : s.gatewayThread = .dispatching cmd) (hpush : s.inbound.push cmd = some q)
    (message : Option InboundCommand) :
    Progresses s (.gateway message) { s with inbound := q, gatewayThread := .serving } := by
  have hitems := congrArg List.length (BoundedFifo.push_eq_some hpush).2.2
  rw [List.length_append, List.length_singleton] at hitems
  have hahead : gatewayAhead { s with inbound := q, gatewayThread := .serving } + 1 =
      s.gatewayAhead := by
    unfold gatewayAhead
    rw [hg]
    dsimp only
    split_ifs <;> rfl
  refine progresses_of_lt (rank_lt_of_ahead ?_)
  unfold ahead
  dsimp only
  rw [hitems]
  omega

/-- A poll of the matching-engine thread. -/
lemma progresses_matchingPolls [PriceSum] (hidle : s.matchingThread.work? = none) :
    Progresses s .matching { s with
      matchingThread := (s.matchingThread.poll (program s.router) s.gatewayFinished s.inbound).1
      inbound := (s.matchingThread.poll (program s.router) s.gatewayFinished s.inbound).2 } := by
  by_cases hawake : s.matchingThread.Awake s.gatewayFinished s.inbound
  · rcases PollLoop.poll_of_awake (program s.router) hidle hawake with
      ⟨cmd, q, hpop, hpoll⟩ | ⟨hq, hnone, hlt⟩
    · -- a command is taken
      have hitems := congrArg List.length (BoundedFifo.pop_eq_some hpop).2.2
      rw [List.length_cons] at hitems
      rw [hpoll]
      refine progresses_of_lt (rank_lt_of_ahead ?_)
      unfold ahead
      rw [hitems]
      exact Nat.lt_succ_self _
    · rw [hq]
      refine progresses_of_lt (rank_lt_of_behind rfl ?_ (Nat.add_lt_add_left hlt _))
      rw [inHand_of_idle hidle]
      exact inHand_of_idle hnone
  · obtain ⟨hq, hnone, hdistance, hfinished⟩ :=
      PollLoop.poll_of_not_awake (program s.router) hawake
    have hnot : ¬ s.Enabled .matching := (enabled_matching_of_idle hidle).not.mpr hawake
    rw [hq]
    refine .inr (.inr ⟨rank_eq rfl ?_ (congrArg (_ + ·) hdistance), ?_, ?_⟩)
    · rw [inHand_of_idle hidle]
      exact inHand_of_idle hnone
    · intro t ht
      obtain rfl := Option.some.inj ht
      exact hnot
    · intro t ht
      rcases t with _ | _ | _ | _ | _
      · exact MainReady.mono ht rfl id id hfinished id id
      · exact ht
      · exact absurd ht hnot
      all_goals exact ht

/-- The matching-engine thread goes on with the command in hand. -/
lemma progresses_inHand (hahead : s'.ahead = s.ahead) (h : s'.inHand < s.inHand) :
    Progresses s .matching s' := progresses_of_lt (rank_lt_of_inHand hahead h)

/-- A poll of the inventory thread. -/
lemma progresses_inventoryPolls (hidle : s.inventoryThread.work? = none) :
    Progresses s .inventory { s with
      inventoryThread := (s.inventoryThread.poll id s.matchingEngineFinished s.trades).1
      trades := (s.inventoryThread.poll id s.matchingEngineFinished s.trades).2 } := by
  by_cases hawake : s.inventoryThread.Awake s.matchingEngineFinished s.trades
  · refine progresses_of_lt (rank_lt_of_behind rfl rfl ?_)
    have hlt := PollLoop.debt_poll_lt id hidle hawake
    exact Nat.add_lt_add_right (Nat.add_lt_add_right hlt _) _
  · obtain ⟨hq, -, -, hfinished⟩ := PollLoop.poll_of_not_awake id hawake
    have hdebt := PollLoop.debt_poll_eq id hidle hawake
    refine .inr (.inr ⟨rank_eq rfl rfl (congrArg (· + _ + _) hdebt), ?_, ?_⟩)
    · intro t ht
      obtain rfl := Option.some.inj ht
      exact hawake
    · intro t ht
      rw [hq]
      rcases t with _ | _ | _ | _ | _
      · exact MainReady.mono ht rfl id id id hfinished id
      · exact ht
      · exact ht
      · exact absurd ht hawake
      · exact ht

/-- A poll of the market-data thread. -/
lemma progresses_marketDataPolls (hidle : s.marketDataThread.work? = none) (delivered : Bool) :
    Progresses s (.marketData delivered) { s with
      marketDataThread := (s.marketDataThread.poll id s.matchingEngineFinished s.marketData).1
      marketData := (s.marketDataThread.poll id s.matchingEngineFinished s.marketData).2 } := by
  by_cases hawake : s.marketDataThread.Awake s.matchingEngineFinished s.marketData
  · refine progresses_of_lt (rank_lt_of_behind rfl rfl ?_)
    have hlt := PollLoop.debt_poll_lt id hidle hawake
    exact Nat.add_lt_add_right (Nat.add_lt_add_left hlt _) _
  · obtain ⟨hq, -, -, hfinished⟩ := PollLoop.poll_of_not_awake id hawake
    have hdebt := PollLoop.debt_poll_eq id hidle hawake
    refine .inr (.inr ⟨rank_eq rfl rfl (congrArg (_ + · + _) hdebt), ?_, ?_⟩)
    · intro t ht
      obtain rfl := Option.some.inj ht
      exact hawake
    · intro t ht
      rw [hq]
      rcases t with _ | _ | _ | _ | _
      · exact MainReady.mono ht rfl id id id id hfinished
      · exact ht
      · exact ht
      · exact ht
      · exact absurd ht hawake

/-- Every turn that reads no message progresses. -/
lemma Turn.progresses [PriceSum] {sent : List MarketEvent} (h : Turn s a s' sent)
    (hquiet : a.Quiet) : Progresses s a s' := by
  cases h with
  | rests hterm => exact .inl hterm
  | signal => exact progresses_signal
  | main _ hmain => exact progresses_main hmain
  | mainWaits hready => exact progresses_of_waits rfl hready
  | gatewayEnters hg hrunning =>
    exact progresses_gateway_running hrunning (.inl hg) (.inr rfl) _
  | gatewayLeaves hg hrunning => exact progresses_gateway_halted hrunning (.inl ⟨hg, rfl⟩) _
  | gatewayReturns hg =>
    by_cases hrunning : s.running = true
    · exact progresses_gateway_running hrunning (.inr hg) (.inl rfl) _
    · rw [Bool.not_eq_true] at hrunning
      exact progresses_gateway_halted hrunning (.inr ⟨hg, rfl⟩) _
  | gatewayReads => exact absurd rfl (hquiet _)
  | dispatches hg hpush => exact progresses_dispatches hg hpush _
  | dispatchWaits hg hpush =>
    refine progresses_of_waits rfl ?_
    rw [Enabled, hg]
    exact not_not.mpr hpush
  | gatewayEnded hg =>
    refine progresses_of_waits rfl ?_
    rw [Enabled, hg]
    exact id
  | matchingPolls hidle => exact progresses_matchingPolls hidle
  | publishes hm | queuesTrade hm | commits hm | completes hm =>
    refine progresses_inHand rfl ?_
    rw [inHand_of_working hm]
    exact Nat.lt_succ_self _
  | publishWaits hm hpush | queueTradeWaits hm hpush =>
    refine progresses_of_waits rfl ?_
    rw [Enabled, hm]
    exact not_not.mpr hpush
  | inventoryPolls hidle => exact progresses_inventoryPolls hidle
  | @settles trade hi =>
    refine progresses_of_lt (rank_lt_of_behind rfl rfl ?_)
    have hlt := PollLoop.debt_popping_lt s.matchingEngineFinished s.trades trade
    unfold behind
    rw [hi]
    exact Nat.add_lt_add_right (Nat.add_lt_add_right hlt _) _
  | throws => exact .inl rfl
  | marketDataPolls hidle => exact progresses_marketDataPolls hidle _
  | @sends event hd =>
    refine progresses_of_lt (rank_lt_of_behind rfl rfl ?_)
    have hlt := PollLoop.debt_popping_lt s.matchingEngineFinished s.marketData event
    unfold behind
    rw [hd]
    exact Nat.add_lt_add_right (Nat.add_lt_add_left hlt _) _

end Progress

end State

end ToyExchange
