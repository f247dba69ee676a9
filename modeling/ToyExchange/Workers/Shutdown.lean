import ToyExchange.Workers.InOrder

/-!
# Ordered shutdown

The main thread ends the stages one after the other: it sets the flag of a stage only after it has
joined the thread that feeds it (`Ordered`).  A consumer, however, tests for emptiness and for the
flag in two steps.  If the last push, the end of its producer, the join and the store of the flag
all fall between its failed pop and its read of the flag, it leaves its loop with work in its
queue, and that work is lost (`shutdown_drops_command`).

`shutdown_drains_iff` says that this is the only way to lose work: a run that reaches
`WriteSnapshot` has done all its work exactly when every consumer that left its loop did so with an
empty queue.  Two facts carry it: a thread that has ended stays so, and nothing is pushed to or
popped from a queue whose consumer has ended.
-/

namespace ToyExchange

/-- How far the main thread has come. -/
def MainPhase.rank : MainPhase → ℕ
  | .awaitSignal => 0
  | .stopGateway => 1
  | .joinGateway => 2
  | .setGatewayFinished => 3
  | .joinMatching => 4
  | .setMatchingEngineFinished => 5
  | .joinInventory => 6
  | .joinMarketData => 7
  | .writeSnapshot => 8

namespace State

variable {c : Capacities}

/-! ## The order of the stages -/

/-- What a move of the main thread does, by how far it has come: it joins a thread that has ended,
or sets a flag, and goes on. -/
structure Advances (s s' : State c) : Prop where
  rank : s'.mainThread.rank = s.mainThread.rank + 1
  gatewayThread : s'.gatewayThread = s.gatewayThread
  matchingThread : s'.matchingThread = s.matchingThread
  inventoryThread : s'.inventoryThread = s.inventoryThread
  marketDataThread : s'.marketDataThread = s.marketDataThread
  joinsGateway : s.mainThread.rank = 2 → s.gatewayThread = .finished
  joinsMatching : s.mainThread.rank = 4 → s.matchingThread = .finished
  joinsInventory : s.mainThread.rank = 6 → s.inventoryThread = .finished
  joinsMarketData : s.mainThread.rank = 7 → s.marketDataThread = .finished
  gatewayFinished : s'.gatewayFinished = true ↔ s.gatewayFinished = true ∨ s.mainThread.rank = 3
  matchingEngineFinished :
    s'.matchingEngineFinished = true ↔ s.matchingEngineFinished = true ∨ s.mainThread.rank = 5

lemma MainMove.advances {s s' : State c} (h : MainMove s s') : Advances s s' := by
  -- The guards on the rank single out the one case in which a thread is joined or a flag is set.
  cases h with
  | seesSignal hm | stopsGateway hm | setsGatewayFinished hm | setsMatchingEngineFinished hm =>
    refine ⟨by rw [hm]; rfl, rfl, rfl, rfl, rfl, ?_, ?_, ?_, ?_, ?_, ?_⟩ <;>
      simp [hm, MainPhase.rank]
  | joinsGateway hm hjoin | joinsMatching hm hjoin | joinsInventory hm hjoin
  | joinsMarketData hm hjoin =>
    refine ⟨by rw [hm]; rfl, rfl, rfl, rfl, rfl, ?_, ?_, ?_, ?_, ?_, ?_⟩ <;>
      simp [hm, hjoin, MainPhase.rank]

/-- A stage has ended before the next one may. -/
structure Ordered (s : State c) : Prop where
  gateway_joined : 3 ≤ s.mainThread.rank → s.gatewayThread = .finished
  matching_joined : 5 ≤ s.mainThread.rank → s.matchingThread = .finished
  inventory_joined : 7 ≤ s.mainThread.rank → s.inventoryThread = .finished
  marketData_joined : 8 ≤ s.mainThread.rank → s.marketDataThread = .finished
  /-- The first flag is set after the gateway thread has been joined. -/
  gatewayFinished : s.gatewayFinished = true → 4 ≤ s.mainThread.rank
  /-- The second flag is set after the matching-engine thread has been joined. -/
  matchingEngineFinished : s.matchingEngineFinished = true → 6 ≤ s.mainThread.rank
  /-- A consumer ends after its flag has been set. -/
  matching_finished : s.matchingThread = .finished → s.gatewayFinished = true
  inventory_finished : s.inventoryThread = .finished → s.matchingEngineFinished = true
  marketData_finished : s.marketDataThread = .finished → s.matchingEngineFinished = true

lemma ordered_init : (init c).Ordered := by
  constructor <;> intro h <;> cases h

/-- No consumer of commands has ended while the gateway runs. -/
lemma Ordered.matching_of_gateway {s : State c} (h : s.Ordered)
    (hg : s.gatewayThread ≠ .finished) : s.matchingThread ≠ .finished := by
  intro hm
  have hrank := h.gatewayFinished (h.matching_finished hm)
  exact hg (h.gateway_joined (by omega))

/-- The inventory thread has not ended while the matching-engine thread runs. -/
lemma Ordered.inventory_of_matching {s : State c} (h : s.Ordered)
    (hm : s.matchingThread ≠ .finished) : s.inventoryThread ≠ .finished := by
  intro hi
  have hrank := h.matchingEngineFinished (h.inventory_finished hi)
  exact hm (h.matching_joined (by omega))

/-- The market-data thread has not ended while the matching-engine thread runs. -/
lemma Ordered.marketData_of_matching {s : State c} (h : s.Ordered)
    (hm : s.matchingThread ≠ .finished) : s.marketDataThread ≠ .finished := by
  intro hd
  have hrank := h.matchingEngineFinished (h.marketData_finished hd)
  exact hm (h.matching_joined (by omega))

/-- The main thread keeps the order: it goes on only when the thread it waits for has ended. -/
lemma ordered_advances {s s' : State c} (h : s.Ordered) (hadv : Advances s s') : s'.Ordered := by
  have hrank := hadv.rank
  refine ⟨fun hle => ?_, fun hle => ?_, fun hle => ?_, fun hle => ?_, fun hflag => ?_,
    fun hflag => ?_, fun hfin => ?_, fun hfin => ?_, fun hfin => ?_⟩
  · rw [hadv.gatewayThread]
    rcases Nat.lt_or_ge s.mainThread.rank 3 with hlt | hge
    · exact hadv.joinsGateway (by omega)
    · exact h.gateway_joined hge
  · rw [hadv.matchingThread]
    rcases Nat.lt_or_ge s.mainThread.rank 5 with hlt | hge
    · exact hadv.joinsMatching (by omega)
    · exact h.matching_joined hge
  · rw [hadv.inventoryThread]
    rcases Nat.lt_or_ge s.mainThread.rank 7 with hlt | hge
    · exact hadv.joinsInventory (by omega)
    · exact h.inventory_joined hge
  · rw [hadv.marketDataThread]
    rcases Nat.lt_or_ge s.mainThread.rank 8 with hlt | hge
    · exact hadv.joinsMarketData (by omega)
    · exact h.marketData_joined hge
  · rcases hadv.gatewayFinished.mp hflag with hold | hset
    · have := h.gatewayFinished hold
      omega
    · omega
  · rcases hadv.matchingEngineFinished.mp hflag with hold | hset
    · have := h.matchingEngineFinished hold
      omega
    · omega
  · rw [hadv.matchingThread] at hfin
    exact hadv.gatewayFinished.mpr (.inl (h.matching_finished hfin))
  · rw [hadv.inventoryThread] at hfin
    exact hadv.matchingEngineFinished.mpr (.inl (h.inventory_finished hfin))
  · rw [hadv.marketDataThread] at hfin
    exact hadv.matchingEngineFinished.mpr (.inl (h.marketData_finished hfin))

/-! ## Threads that have ended -/

section Moves

variable [PriceSum] {s s' : State c}

/-- A gateway thread that has ended stays so. -/
lemma Move.gateway_stays (h : Move s s') (hg : s.gatewayThread = .finished) :
    s'.gatewayThread = .finished := by
  cases h with
  | gatewayTurns hne => exact absurd hg hne
  | dispatches hd => exact absurd (hg.symm.trans hd) nofun
  | main hmain => rw [hmain.advances.gatewayThread, hg]
  | _ => exact hg

/-- A matching-engine thread that has ended stays so. -/
lemma Move.matching_stays (h : Move s s') (hm : s.matchingThread = .finished) :
    s'.matchingThread = .finished := by
  cases h with
  | matchingPolls _ hpoll => exact hpoll.of_finished hm
  | publishes hw | queuesTrade hw | commits hw | completes hw =>
    exact absurd (hm.symm.trans hw) nofun
  | main hmain => rw [hmain.advances.matchingThread, hm]
  | _ => exact hm

/-- An inventory thread that has ended stays so. -/
lemma Move.inventory_stays (h : Move s s') (hi : s.inventoryThread = .finished) :
    s'.inventoryThread = .finished := by
  cases h with
  | inventoryPolls _ hpoll => exact hpoll.of_finished hi
  | settles hw => exact absurd (hi.symm.trans hw) nofun
  | main hmain => rw [hmain.advances.inventoryThread, hi]
  | _ => exact hi

/-- A market-data thread that has ended stays so. -/
lemma Move.marketData_stays (h : Move s s') (hd : s.marketDataThread = .finished) :
    s'.marketDataThread = .finished := by
  cases h with
  | marketDataPolls _ hpoll => exact hpoll.of_finished hd
  | sends hw => exact absurd (hd.symm.trans hw) nofun
  | main hmain => rw [hmain.advances.marketDataThread, hd]
  | _ => exact hd

/-- A move of a thread other than the main one keeps the order. -/
lemma ordered_of_main_eq (h : s.Ordered) (hmove : Move s s')
    (hmain : s'.mainThread = s.mainThread) (hgf : s'.gatewayFinished = s.gatewayFinished)
    (hmf : s'.matchingEngineFinished = s.matchingEngineFinished)
    (hm : s'.matchingThread = .finished → s.gatewayFinished = true)
    (hi : s'.inventoryThread = .finished → s.matchingEngineFinished = true)
    (hd : s'.marketDataThread = .finished → s.matchingEngineFinished = true) : s'.Ordered where
  gateway_joined hle := hmove.gateway_stays (h.gateway_joined (hmain ▸ hle))
  matching_joined hle := hmove.matching_stays (h.matching_joined (hmain ▸ hle))
  inventory_joined hle := hmove.inventory_stays (h.inventory_joined (hmain ▸ hle))
  marketData_joined hle := hmove.marketData_stays (h.marketData_joined (hmain ▸ hle))
  gatewayFinished hflag := hmain ▸ h.gatewayFinished (hgf ▸ hflag)
  matchingEngineFinished hflag := hmain ▸ h.matchingEngineFinished (hmf ▸ hflag)
  matching_finished hfin := hgf ▸ hm hfin
  inventory_finished hfin := hmf ▸ hi hfin
  marketData_finished hfin := hmf ▸ hd hfin

/-- Every move keeps the order. -/
theorem ordered_move (h : s.Ordered) (hmove : Move s s') : s'.Ordered := by
  have hm := h.matching_finished
  have hi := h.inventory_finished
  have hd := h.marketData_finished
  cases hmove with
  | main hmain => exact ordered_advances h hmain.advances
  | matchingPolls hidle hpoll =>
    refine ordered_of_main_eq h (.matchingPolls hidle hpoll) rfl rfl rfl (fun hfin => ?_) hi hd
    exact (hpoll.flag_of_finished hfin).elim hm id
  | inventoryPolls hidle hpoll =>
    refine ordered_of_main_eq h (.inventoryPolls hidle hpoll) rfl rfl rfl hm (fun hfin => ?_) hd
    exact (hpoll.flag_of_finished hfin).elim hi id
  | marketDataPolls hidle hpoll =>
    refine ordered_of_main_eq h (.marketDataPolls hidle hpoll) rfl rfl rfl hm hi fun hfin => ?_
    exact (hpoll.flag_of_finished hfin).elim hd id
  | waits => exact h
  | signal => exact ordered_of_main_eq h .signal rfl rfl rfl hm hi hd
  | gatewayTurns hg => exact ordered_of_main_eq h (.gatewayTurns hg) rfl rfl rfl hm hi hd
  | dispatches hg hpush =>
    exact ordered_of_main_eq h (.dispatches hg hpush) rfl rfl rfl hm hi hd
  | publishes hw hpush =>
    exact ordered_of_main_eq h (.publishes hw hpush) rfl rfl rfl nofun hi hd
  | queuesTrade hw hpush =>
    exact ordered_of_main_eq h (.queuesTrade hw hpush) rfl rfl rfl nofun hi hd
  | commits hw => exact ordered_of_main_eq h (.commits hw) rfl rfl rfl nofun hi hd
  | completes hw => exact ordered_of_main_eq h (.completes hw) rfl rfl rfl nofun hi hd
  | settles hw hok => exact ordered_of_main_eq h (.settles hw hok) rfl rfl rfl hm nofun hd
  | throws => exact ordered_of_main_eq h .throws rfl rfl rfl hm hi hd
  | sends hw => exact ordered_of_main_eq h (.sends hw) rfl rfl rfl hm hi nofun

/-! ## Queues whose consumer has ended -/

/-- A move that ends with the matching-engine thread out of its loop leaves the commands in the
inbound queue alone: the gateway has ended before. -/
lemma Move.inbound_items (ho : s.Ordered) (h : Move s s') (hfin : s'.matchingThread = .finished) :
    s'.inbound.items = s.inbound.items := by
  cases h with
  | dispatches hg =>
    have hne : s.gatewayThread ≠ .finished := by
      intro hfinished
      rw [hg] at hfinished
      cases hfinished
    exact absurd hfin (ho.matching_of_gateway hne)
  | matchingPolls _ hpoll => exact hpoll.items_of_finished hfin
  | main hmain =>
    obtain ⟨_, _, _, _, rfl⟩ := hmain.exists_eq
    rfl
  | _ => rfl

/-- A move that ends with the inventory thread out of its loop leaves the trades in its queue
alone: the matching-engine thread has ended before. -/
lemma Move.trades_items (ho : s.Ordered) (h : Move s s') (hfin : s'.inventoryThread = .finished) :
    s'.trades.items = s.trades.items := by
  cases h with
  | queuesTrade hw =>
    have hne : s.matchingThread ≠ .finished := by rw [hw]; nofun
    exact absurd hfin (ho.inventory_of_matching hne)
  | inventoryPolls _ hpoll => exact hpoll.items_of_finished hfin
  | main hmain =>
    obtain ⟨_, _, _, _, rfl⟩ := hmain.exists_eq
    rfl
  | _ => rfl

/-- A move that ends with the market-data thread out of its loop leaves the events in its queue
alone. -/
lemma Move.marketData_items (ho : s.Ordered) (h : Move s s')
    (hfin : s'.marketDataThread = .finished) : s'.marketData.items = s.marketData.items := by
  cases h with
  | publishes hw =>
    have hne : s.matchingThread ≠ .finished := by rw [hw]; nofun
    exact absurd hfin (ho.marketData_of_matching hne)
  | marketDataPolls _ hpoll => exact hpoll.items_of_finished hfin
  | main hmain =>
    obtain ⟨_, _, _, _, rfl⟩ := hmain.exists_eq
    rfl
  | _ => rfl

end Moves

/-! ## Clean exits -/

/-- No consumer that has ended left work in its queue. -/
structure NothingLeft (s : State c) : Prop where
  inbound : s.matchingThread = .finished → s.inbound.items = []
  trades : s.inventoryThread = .finished → s.trades.items = []
  marketData : s.marketDataThread = .finished → s.marketData.items = []

lemma nothingLeft_init : (init c).NothingLeft where
  inbound _ := rfl
  trades _ := rfl
  marketData _ := rfl

/-- A consumer that leaves its loop in this step has an empty queue at that moment. -/
def CleanExit [PriceSum] (s : State c) (a : Action) : Prop :=
  (s.matchingThread ≠ .finished → (s.step a).1.matchingThread = .finished →
    s.inbound.items = []) ∧
  (s.inventoryThread ≠ .finished → (s.step a).1.inventoryThread = .finished →
    s.trades.items = []) ∧
  (s.marketDataThread ≠ .finished → (s.step a).1.marketDataThread = .finished →
    s.marketData.items = [])

instance [PriceSum] (s : State c) (a : Action) : Decidable (CleanExit s a) :=
  inferInstanceAs (Decidable (_ ∧ _ ∧ _))

/-- For one consumer: if it stays out of its loop, and its queue is not touched when it is, then
nothing is left after a step exactly when nothing was left before and the exit, if it leaves its
loop in this step, is clean. -/
lemma left_iff {ω α : Type*} {l l' : PollLoop ω} {items items' : List α}
    (hstays : l = .finished → l' = .finished) (hitems : l' = .finished → items' = items) :
    (l' = .finished → items' = []) ↔
      (l = .finished → items = []) ∧ (l ≠ .finished → l' = .finished → items = []) := by
  constructor
  · intro h
    exact ⟨fun hl => hitems (hstays hl) ▸ h (hstays hl), fun _ hl' => hitems hl' ▸ h hl'⟩
  · rintro ⟨hbefore, hexit⟩ hl'
    rw [hitems hl']
    by_cases hl : l = .finished
    · exact hbefore hl
    · exact hexit hl hl'

section Runs

variable [PriceSum]

lemma nothingLeft_step_iff {s : State c} (ho : s.Ordered) (a : Action) :
    (s.step a).1.NothingLeft ↔ s.NothingLeft ∧ CleanExit s a := by
  have hmove := move_step s a
  have hinbound := left_iff hmove.matching_stays (hmove.inbound_items ho)
  have htrades := left_iff hmove.inventory_stays (hmove.trades_items ho)
  have hmarketData := left_iff hmove.marketData_stays (hmove.marketData_items ho)
  constructor
  · rintro ⟨h₁, h₂, h₃⟩
    obtain ⟨hb₁, he₁⟩ := hinbound.mp h₁
    obtain ⟨hb₂, he₂⟩ := htrades.mp h₂
    obtain ⟨hb₃, he₃⟩ := hmarketData.mp h₃
    exact ⟨⟨hb₁, hb₂, hb₃⟩, he₁, he₂, he₃⟩
  · rintro ⟨⟨hb₁, hb₂, hb₃⟩, he₁, he₂, he₃⟩
    exact ⟨hinbound.mpr ⟨hb₁, he₁⟩, htrades.mpr ⟨hb₂, he₂⟩, hmarketData.mpr ⟨hb₃, he₃⟩⟩

/-- A run leaves nothing behind exactly when all its exits are clean. -/
theorem nothingLeft_after_iff (actions : List Action) :
    (after c actions).NothingLeft ↔ Mealy.Along step CleanExit (init c) actions := by
  have hordered : ∀ (s : State c) (a : Action), s.Ordered → (s.step a).1.Ordered :=
    fun s a ho => ordered_move ho (move_step s a)
  have hstep : ∀ (s : State c) (a : Action), s.Ordered →
      ((s.step a).1.NothingLeft ↔ s.NothingLeft ∧ CleanExit s a) :=
    fun _ a ho => nothingLeft_step_iff ho a
  have h := Mealy.along_iff_run hordered hstep ordered_init actions
  exact h.trans (and_iff_right nothingLeft_init)

/-! ## The accounts -/

/-- The registry is what settling the settled trades in order leads to, and none of them threw. -/
structure Accounted (s : State c) : Prop where
  registry : s.registry = UserRegistry.fresh.settleAll s.settled
  accepted : ∀ x ∈ s.settled, ∀ r : UserRegistry, (r.settle x.1 x.2).threw = false

lemma accounted_move {s s' : State c} (h : s.Accounted) (hmove : Move s s') : s'.Accounted := by
  cases hmove with
  | main hmain =>
    obtain ⟨_, _, _, _, rfl⟩ := hmain.exists_eq
    exact ⟨h.registry, h.accepted⟩
  | @settles trade hw hok =>
    constructor
    · change (s.registry.settle trade (s.router.midPrice trade.ticker)).registry =
        UserRegistry.fresh.settleAll (s.settled ++ [(trade, s.router.midPrice trade.ticker)])
      rw [UserRegistry.settleAll_concat h.accepted, ← h.registry]
    · intro x hx r
      rcases List.mem_append.mp hx with hx | hx
      · exact h.accepted x hx r
      · obtain rfl := List.mem_singleton.mp hx
        exact (UserRegistry.threw_settle r s.registry _ _).trans hok
  | _ => exact ⟨h.registry, h.accepted⟩

lemma accounted_after (actions : List Action) : (after c actions).Accounted :=
  after_invariant ⟨rfl, nofun⟩ (fun _ _ => accounted_move) actions

/-! ## Shutdown -/

/-- All work is done: the queues are empty, every command pushed by the gateway was executed, every
trade was settled and every event was popped, each once and in the order of the pushes. -/
structure Drained (s : State c) : Prop where
  inbound_empty : s.inbound.items = []
  marketData_empty : s.marketData.items = []
  trades_empty : s.trades.items = []
  executed : s.inbound.popped = s.inbound.pushed ∧
    s.router = MatchingEngineRouter.after s.inbound.pushed
  settled : s.settled.map Prod.fst = MatchingEngineRouter.tradesOf s.inbound.pushed ∧
    s.registry = UserRegistry.fresh.settleAll s.settled
  published : s.marketData.popped = feedOf s.inbound.pushed

/-- Once all threads have ended, empty queues mean that all work is done. -/
lemma drained_of_empty {s : State c} (h : s.InOrder) (hacc : s.Accounted)
    (hm : s.matchingThread = .finished) (hi : s.inventoryThread = .finished)
    (hinbound : s.inbound.items = []) (htrades : s.trades.items = [])
    (hmarketData : s.marketData.items = []) : s.Drained := by
  have htodo : s.todo = [] := todo_of_idle (by rw [hm]; rfl)
  have hcommands := (BoundedFifo.popped_eq_pushed_iff _).mpr hinbound
  have hevents := h.events
  have hmade := h.trades
  have hrouter := h.router
  have hsettling := h.settling
  rw [htodo, hcommands, List.filterMap_nil, List.append_nil] at hevents hmade
  rw [htodo, hcommands] at hrouter
  rw [hi] at hsettling
  refine ⟨hinbound, hmarketData, htrades, ⟨hcommands, hrouter⟩, ⟨?_, hacc.registry⟩, ?_⟩
  · rw [← hmade, ← (BoundedFifo.popped_eq_pushed_iff _).mpr htrades, ← hsettling]
    exact (List.append_nil _).symm
  · rw [← hevents, (BoundedFifo.popped_eq_pushed_iff _).mpr hmarketData]

/-- **Ordered shutdown.**  In every interleaving that brings the main thread to `WriteSnapshot`,
with queues of any capacities and any number of commands: all work is done exactly when each
consumer that left its loop did so with an empty queue. -/
theorem shutdown_drains_iff (c : Capacities) (actions : List Action)
    (hmain : (after c actions).mainThread = .writeSnapshot) :
    (after c actions).Drained ↔ Mealy.Along step CleanExit (init c) actions := by
  have ho : (after c actions).Ordered :=
    after_invariant ordered_init (fun _ _ => ordered_move) actions
  have hrank : (after c actions).mainThread.rank = 8 := by
    rw [hmain]
    rfl
  have hm := ho.matching_joined (by omega)
  have hi := ho.inventory_joined (by omega)
  have hd := ho.marketData_joined (by omega)
  rw [← nothingLeft_after_iff]
  constructor
  · intro hdrained
    exact ⟨fun _ => hdrained.inbound_empty, fun _ => hdrained.trades_empty,
      fun _ => hdrained.marketData_empty⟩
  · rintro ⟨hinbound, htrades, hmarketData⟩
    exact drained_of_empty (inOrder_after c actions) (accounted_after actions) hm hi (hinbound hm)
      (htrades hi) (hmarketData hd)

end Runs

/-- An ask and a bid that crosses it are pushed, executed and settled before the signal; every
thread then ends with its queue empty. -/
theorem shutdown_drains_one_trade :
    let ask : InboundCommand := .add ⟨1, 1, .aapl, .sell, 100, 10⟩
    let bid : InboundCommand := .add ⟨2, 2, .aapl, .buy, 100, 4⟩
    let actions : List Action :=
      List.flatten [
        [.gateway none, .gateway (some ask), .gateway none, .gateway (some bid), .gateway none],
        List.replicate 12 .matching, List.replicate 6 (.marketData true),
        [.inventory, .inventory, .signal, .main, .main, .gateway none, .gateway none, .main, .main,
          .matching, .matching, .main, .main, .inventory, .inventory, .marketData true,
          .marketData true, .main, .main]]
    (@after PriceSum.int64 .exchange actions).mainThread = .writeSnapshot ∧
      (@after PriceSum.int64 .exchange actions).settled.length = 1 ∧
      @Drained _ PriceSum.int64 (@after PriceSum.int64 .exchange actions) :=
  ⟨by decide +kernel, by decide +kernel,
    (@shutdown_drains_iff PriceSum.int64 .exchange _ (by decide +kernel)).mpr (by decide +kernel)⟩

/-- The matching-engine thread finds its queue empty.  Before it reads the flag, the gateway pushes
a command, the signal arrives, the gateway ends and is joined, and the flag is set.  The thread
then reads the flag and leaves; the command is never executed. -/
theorem shutdown_drops_command :
    let cmd : InboundCommand := .add ⟨1, 1, .aapl, .buy, 100, 10⟩
    let actions : List Action :=
      [.matching, .gateway none, .gateway (some cmd), .gateway none, .signal, .main, .main,
        .gateway none, .gateway none, .main, .main, .matching, .main, .main, .inventory,
        .inventory, .marketData true, .marketData true, .main, .main]
    (@after PriceSum.int64 .exchange actions).mainThread = .writeSnapshot ∧
      (@after PriceSum.int64 .exchange actions).inbound.pushed = [cmd] ∧
      (@after PriceSum.int64 .exchange actions).inbound.items = [cmd] ∧
      (@after PriceSum.int64 .exchange actions).inbound.popped = [] ∧
      ¬ @Drained _ PriceSum.int64 (@after PriceSum.int64 .exchange actions) := by
  refine ⟨by decide +kernel, by decide +kernel, by decide +kernel, by decide +kernel, fun h => ?_⟩
  exact absurd (@Drained.inbound_empty _ PriceSum.int64 _ h) (by decide +kernel)

end State

end ToyExchange
