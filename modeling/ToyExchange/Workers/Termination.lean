import ToyExchange.Workers.Rank
import ToyExchange.Engine.Provenance

/-!
# Shutdown comes to an end

`shutdown_never_deadlocks` says that somebody can always go on.  Here it is shown that this leads
somewhere: on every fair schedule with a signal and finitely many messages offered to the gateway,
the main thread comes to `WriteSnapshot`, unless an order of an unknown user was offered
(`shutdown_terminates`).  The rank of the states falls until it does (`ranking`).

Messages have to be finitely many.  A client that always has a further message ready keeps the
gateway in `ReadFrom`, which does not look at `running_`, and the main thread waits in the first
join for ever (`busy_gateway_blocks_shutdown`).
-/

namespace ToyExchange

namespace State

variable {c : Capacities}

/-! ## Whole schedules -/

section Schedules

variable [PriceSum]

/-- The gateway is told to stop before it is joined. -/
lemma halted_move {s s' : State c} (h : 2 ≤ s.mainThread.rank → s.running = false)
    (hmove : Move s s') : 2 ≤ s'.mainThread.rank → s'.running = false := by
  cases hmove with
  | main hmain =>
    cases hmain with
    | seesSignal => exact fun hle => absurd (show 2 ≤ 1 from hle) (by decide)
    | stopsGateway => exact fun _ => rfl
    | joinsGateway hm | setsGatewayFinished hm | joinsMatching hm | setsMatchingEngineFinished hm
    | joinsInventory hm | joinsMarketData hm =>
      intro _
      exact h (by rw [hm]; decide)
  | _ => exact h

lemma requested_move {s s' : State c} (h : s.shutdownRequested = true) (hmove : Move s s') :
    s'.shutdownRequested = true := by
  cases hmove with
  | signal => rfl
  | main hmain =>
    obtain ⟨_, _, _, _, rfl⟩ := hmain.exists_eq
    exact h
  | _ => exact h

/-- A step on the way to the end keeps what is known. -/
lemma shuttingDown_step {s : State c} (h : s.ShuttingDown) (a : Action) :
    (s.step a).1.ShuttingDown where
  ordered := ordered_move h.ordered (move_step s a)
  flagged := flagged_move h.flagged (move_step s a)
  requested := requested_move h.requested (move_step s a)
  halted := halted_move h.halted (move_step s a)

lemma shuttingDown_after {actions : List Action}
    (h : (after c actions).shutdownRequested = true) : (after c actions).ShuttingDown where
  ordered := ordered_after c actions
  flagged := flagged_after c actions
  requested := h
  halted := after_invariant (P := fun s => 2 ≤ s.mainThread.rank → s.running = false)
    (fun hle => absurd (show 2 ≤ 0 from hle) (by decide)) (fun _ _ => halted_move) actions

/-- The turns of the threads are ranked. -/
lemma ranking (hinbound : 1 ≤ c.inbound) (hmarketData : 1 ≤ c.marketData)
    (htrades : 1 ≤ c.trades) :
    Fairness.Ranking (step (c := c)) Action.thread? Action.Quiet ShuttingDown
      (fun s => s.mainThread = .writeSnapshot ∨ s.terminated = true) rank Enabled where
  keeps s a h _ := shuttingDown_step h a
  exists_enabled s h hgoal :=
    exists_enabled hinbound hmarketData htrades h fun hmain => hgoal (.inl hmain)
  falls s a _ hquiet _ := by
    rcases (turn_step s a).progresses hquiet with hterm | hfalls | hstays
    · exact .inl (.inr hterm)
    · exact .inr (.inl hfalls)
    · exact .inr (.inr hstays)

/-- What a turn does to the commands: a pushed one was in hand, and one in hand was read. -/
lemma Turn.commands {s s' : State c} {a : Action} {sent : List MarketEvent}
    (h : Turn s a s' sent) :
    (∀ cmd ∈ s'.inbound.pushed, cmd ∈ s.inbound.pushed ∨ s.gatewayThread = .dispatching cmd) ∧
      ∀ cmd, s'.gatewayThread = .dispatching cmd →
        s.gatewayThread = .dispatching cmd ∨ a = .gateway (some cmd) := by
  by_cases ha : ∀ message, a ≠ .gateway message
  · obtain ⟨hthread, hpushed⟩ := h.frame_gateway ha
    rw [hthread, hpushed]
    exact ⟨fun _ => .inl, fun _ => .inl⟩
  · cases h with
    | rests | dispatchWaits | gatewayEnded => exact ⟨fun _ => .inl, fun _ => .inl⟩
    | gatewayEnters | gatewayLeaves | gatewayReturns => exact ⟨fun _ => .inl, nofun⟩
    | gatewayReads =>
      refine ⟨fun _ => .inl, fun cmd hcmd => .inr ?_⟩
      rw [GatewayLoop.dispatching.inj hcmd]
    | dispatches hg hpush =>
      refine ⟨fun cmd hcmd => ?_, nofun⟩
      rw [(BoundedFifo.push_eq_some hpush).1] at hcmd
      rcases List.mem_append.mp hcmd with hcmd | hcmd
      · exact .inl hcmd
      · exact .inr (List.mem_singleton.mp hcmd ▸ hg)
    | _ => exact absurd (fun _ => nofun) ha

/-- Every command on the queue was read by the gateway, and so was the one in hand. -/
lemma commands_after (c : Capacities) (actions : List Action) :
    (∀ cmd ∈ (after c actions).inbound.pushed, .gateway (some cmd) ∈ actions) ∧
      ∀ cmd, (after c actions).gatewayThread = .dispatching cmd →
        .gateway (some cmd) ∈ actions := by
  induction actions using List.reverseRecOn with
  | nil => exact ⟨nofun, nofun⟩
  | append_singleton actions a ih =>
    obtain ⟨ihpushed, ihhand⟩ := ih
    unfold after at ihpushed ihhand ⊢
    rw [Mealy.run_concat_fst]
    obtain ⟨hpushed, hhand⟩ := (turn_step (Mealy.run step (init c) actions).1 a).commands
    refine ⟨fun cmd hcmd => ?_, fun cmd hcmd => ?_⟩
    · refine List.mem_append_left _ ?_
      rcases hpushed cmd hcmd with hold | hnew
      · exact ihpushed cmd hold
      · exact ihhand cmd hnew
    · rcases hhand cmd hcmd with hold | hread
      · exact List.mem_append_left _ (ihhand cmd hold)
      · exact List.mem_append_right _ (List.mem_singleton.mpr hread.symm)

/-- The process ends only if an order was read whose user is not in the registry. -/
lemma exists_bad_order {actions : List Action} (hterm : (after c actions).terminated = true) :
    ∃ order, .gateway (some (.add order)) ∈ actions ∧ UserRegistry.get order.userId = none := by
  obtain ⟨trade, hi, hget⟩ := cause_after c actions hterm
  have ho := inOrder_after c actions
  have htrade : trade ∈ MatchingEngineRouter.tradesOf (after c actions).inbound.popped := by
    refine List.IsPrefix.subset ⟨_, ho.trades⟩ ((BoundedFifo.popped_prefix _).subset ?_)
    rw [← ho.settling, hi]
    exact List.mem_append_right _ (List.mem_singleton_self _)
  obtain ⟨maker, taker, hmaker, htaker, hbetween⟩ :=
    MatchingEngineRouter.exists_between_of_mem_tradesOf htrade
  have hread : ∀ order, .add order ∈ (after c actions).inbound.popped →
      .gateway (some (.add order)) ∈ actions := by
    intro order horder
    exact (commands_after c actions).1 _ ((BoundedFifo.popped_prefix _).subset horder)
  rcases hget with hget | hget
  · exact ⟨maker, hread maker hmaker, hbetween.makerId ▸ hget⟩
  · exact ⟨taker, hread taker htaker, hbetween.takerId ▸ hget⟩

/-- From the signal on, shutdown is requested, unless the process has ended. -/
lemma requested_of_signal {schedule : ℕ → Action} {n : ℕ} (hsignal : schedule n = .signal)
    {m : ℕ} (hm : n < m) :
    (Mealy.trace step (init c) schedule n).terminated = true ∨
      (Mealy.trace step (init c) schedule m).shutdownRequested = true := by
  by_cases hterm : (Mealy.trace step (init c) schedule n).terminated = true
  · exact .inl hterm
  · right
    induction m, hm using Nat.le_induction with
    | base =>
      rw [Mealy.trace_succ, hsignal, step, if_neg hterm]
    | succ m _ ih =>
      rw [Mealy.trace_succ]
      exact requested_move ih (move_step _ _)

/-- **Shutdown comes to an end.**  Let every queue have room for an element.  On every schedule on
which each thread has infinitely many turns, a signal arrives, and finitely many messages are
offered to the gateway, with whatever turns of the threads in between: the main thread comes to
`WriteSnapshot`, unless an order is offered whose user is not in the registry.  A message counts as
offered on every turn of the gateway that carries it, also on those on which the gateway does not
read. -/
theorem shutdown_terminates (c : Capacities)
    (hc : 1 ≤ c.inbound ∧ 1 ≤ c.marketData ∧ 1 ≤ c.trades) (schedule : ℕ → Action)
    (hfair : Fairness.Fair Action.thread? schedule) (hsignal : ∃ n, schedule n = .signal)
    (hquiet : ∃ n, ∀ m, n ≤ m → (schedule m).Quiet) :
    ∃ n, (after c ((List.range n).map schedule)).mainThread = .writeSnapshot ∨
      ∃ m order, schedule m = .gateway (some (.add order)) ∧
        UserRegistry.get order.userId = none := by
  obtain ⟨hinbound, hmarketData, htrades⟩ := hc
  obtain ⟨n₁, hsignal⟩ := hsignal
  obtain ⟨n₂, hquiet⟩ := hquiet
  have hbad : ∀ n, (after c ((List.range n).map schedule)).terminated = true →
      ∃ m order, schedule m = .gateway (some (.add order)) ∧
        UserRegistry.get order.userId = none := by
    intro n hterm
    obtain ⟨order, hread, hget⟩ := exists_bad_order hterm
    obtain ⟨m, -, hm⟩ := List.mem_map.mp hread
    exact ⟨m, order, hm, hget⟩
  -- from here on shutdown is requested and no message is read
  have hstart := requested_of_signal (c := c) hsignal (m := n₁ + 1 + n₂) (by omega)
  rcases hstart with hterm | hrequested
  · exact ⟨n₁, .inr (hbad n₁ hterm)⟩
  · obtain ⟨n, hn⟩ := (ranking hinbound hmarketData htrades).eventually
      (shuttingDown_after hrequested) (fun m => hquiet (n₁ + 1 + n₂ + m) (by omega))
      (hfair.drop (n₁ + 1 + n₂))
    change (Mealy.trace step (Mealy.trace step (init c) schedule _) _ n).mainThread = _ ∨
      (Mealy.trace step (Mealy.trace step (init c) schedule _) _ n).terminated = true at hn
    rw [Mealy.trace_add] at hn
    exact ⟨n₁ + 1 + n₂ + n, hn.imp_right (hbad _)⟩

end Schedules

/-- The gateway reads a command, a signal arrives, and from then on the threads take turns. -/
def roundRobin (cmd : InboundCommand) : ℕ → Action
  | 0 => .gateway none
  | 1 => .gateway (some cmd)
  | 2 => .signal
  | n + 3 =>
    match n % 5 with
    | 0 => .main
    | 1 => .gateway none
    | 2 => .matching
    | 3 => .inventory
    | _ => .marketData true

/-- Every thread has a turn in each round. -/
lemma fair_roundRobin (cmd : InboundCommand) :
    Fairness.Fair Action.thread? (roundRobin cmd) := by
  have hturn : ∀ n k, k < 5 → (5 * n + k) % 5 = k := by omega
  intro t n
  rcases t with _ | _ | _ | _ | _
  · exact ⟨5 * n + 0 + 3, by omega, by simp [roundRobin, Action.thread?]⟩
  · exact ⟨5 * n + 1 + 3, by omega, by simp [roundRobin, hturn, Action.thread?]⟩
  · exact ⟨5 * n + 2 + 3, by omega, by simp [roundRobin, hturn, Action.thread?]⟩
  · exact ⟨5 * n + 3 + 3, by omega, by simp [roundRobin, hturn, Action.thread?]⟩
  · exact ⟨5 * n + 4 + 3, by omega, by simp [roundRobin, hturn, Action.thread?]⟩

lemma quiet_roundRobin (cmd : InboundCommand) (n : ℕ) : (roundRobin cmd (n + 3)).Quiet := by
  intro cmd'
  rw [roundRobin]
  split <;> simp

/-- After a command and a signal, the exchange shuts down if its threads take turns. -/
theorem shutdown_terminates_round_robin :
    let cmd : InboundCommand := .add ⟨1, 1, .aapl, .buy, 100, 10⟩
    ∃ n, (@after PriceSum.int64 .exchange ((List.range n).map (roundRobin cmd))).mainThread =
        .writeSnapshot ∨
      ∃ m order, roundRobin cmd m = .gateway (some (.add order)) ∧
        UserRegistry.get order.userId = none := by
  intro cmd
  refine @shutdown_terminates PriceSum.int64 .exchange (by decide) (roundRobin cmd)
    (fair_roundRobin cmd) ⟨2, rfl⟩ ⟨3, fun m hm => ?_⟩
  obtain ⟨n, rfl⟩ := Nat.exists_eq_add_of_le' hm
  exact quiet_roundRobin cmd n

/-! ## A gateway that is kept busy -/

section Busy

variable [PriceSum]

/-- The gateway thread is in the body of its loop. -/
def GatewayBusy (s : State c) : Prop :=
  s.gatewayThread = .serving ∨ ∃ cmd, s.gatewayThread = .dispatching cmd

/-- The gateway thread stays in the body of its loop if it always finds a further message. -/
lemma Turn.gatewayBusy {s s' : State c} {a : Action} {sent : List MarketEvent}
    (hturn : Turn s a s' sent) (h : s.GatewayBusy) (ha : a ≠ .gateway none) : s'.GatewayBusy := by
  unfold GatewayBusy at h ⊢
  cases hturn with
  | gatewayEnters hg | gatewayLeaves hg =>
    rw [hg] at h
    rcases h with h | ⟨cmd, h⟩ <;> cases h
  | gatewayReturns => exact absurd rfl ha
  | gatewayReads => exact .inr ⟨_, rfl⟩
  | dispatches => exact .inl rfl
  | main _ hmain =>
    obtain ⟨_, _, _, _, rfl⟩ := hmain.exists_eq
    exact h
  | _ => exact h

/-- The main thread does not go back. -/
lemma Move.rank_le {s s' : State c} (h : Move s s') :
    s.mainThread.rank ≤ s'.mainThread.rank := by
  cases h with
  | main hmain =>
    rw [hmain.advances.rank]
    exact Nat.le_succ _
  | _ => exact le_rfl

lemma monotone_rank (schedule : ℕ → Action) :
    Monotone fun n => (Mealy.trace step (init c) schedule n).mainThread.rank := by
  refine monotone_nat_of_le_succ fun n => ?_
  rw [Mealy.trace_succ]
  exact (move_step _ _).rank_le

/-- **A busy gateway blocks the shutdown.**  Suppose the gateway serves its connections at some
point of a schedule and from then on always finds a further message when it reads.  Then the main
thread never gets beyond the join of the gateway thread, whatever turns the threads take and whether
a signal has arrived or not: `ReadFrom` does not look at `running_`. -/
theorem busy_gateway_blocks_shutdown (c : Capacities) (schedule : ℕ → Action) (n : ℕ)
    (hserving : (after c ((List.range n).map schedule)).gatewayThread = .serving)
    (hbusy : ∀ m, n ≤ m → schedule m ≠ .gateway none) (m : ℕ) :
    (after c ((List.range m).map schedule)).mainThread.rank ≤
      MainPhase.rank .joinGateway := by
  have hstays : ∀ d, (Mealy.trace step (init c) schedule (n + d)).GatewayBusy := by
    intro d
    induction d with
    | zero => exact .inl hserving
    | succ d ih =>
      rw [← Nat.add_assoc, Mealy.trace_succ]
      exact (turn_step _ _).gatewayBusy ih (hbusy _ (Nat.le_add_right n d))
  have hlate : (Mealy.trace step (init c) schedule (n + m)).mainThread.rank ≤
      MainPhase.rank .joinGateway := by
    by_contra hgt
    have hjoined := (ordered_after c ((List.range (n + m)).map schedule)).gateway_joined
      (Nat.lt_of_not_le hgt)
    rcases hstays m with hg | ⟨cmd, hg⟩
    · exact absurd (hjoined.symm.trans hg) nofun
    · exact absurd (hjoined.symm.trans hg) nofun
  exact le_trans (monotone_rank schedule (Nat.le_add_left m n)) hlate

end Busy

/-- Before each turn of the others the gateway reads a further message. -/
def floodedSchedule (cmd : InboundCommand) (n : ℕ) : Action :=
  if n = 1 then .signal
  else match n % 5 with
    | 0 => .gateway (some cmd)
    | 1 => .main
    | 2 => .matching
    | 3 => .inventory
    | _ => .marketData true

lemma fair_floodedSchedule (cmd : InboundCommand) :
    Fairness.Fair Action.thread? (floodedSchedule cmd) := by
  have hturn : ∀ n k, k < 5 → (5 * n + k) % 5 = k := by omega
  have hlate : ∀ n k, 5 * (n + 1) + k ≠ 1 := by omega
  intro t n
  rcases t with _ | _ | _ | _ | _
  · exact ⟨5 * (n + 1) + 1, by omega, by simp [floodedSchedule, hturn, Action.thread?]⟩
  · exact ⟨5 * (n + 1), by omega, by simp [floodedSchedule, Action.thread?]⟩
  · exact ⟨5 * (n + 1) + 2, by omega, by simp [floodedSchedule, hlate, hturn, Action.thread?]⟩
  · exact ⟨5 * (n + 1) + 3, by omega, by simp [floodedSchedule, hlate, hturn, Action.thread?]⟩
  · exact ⟨5 * (n + 1) + 4, by omega, by simp [floodedSchedule, hlate, hturn, Action.thread?]⟩

/-- A fair schedule with a signal on which the exchange never shuts down. -/
theorem flooded_gateway_blocks_shutdown :
    let cmd : InboundCommand := .add ⟨1, 1, .aapl, .buy, 100, 10⟩
    Fairness.Fair Action.thread? (floodedSchedule cmd) ∧ floodedSchedule cmd 1 = .signal ∧
      ∀ m, (@after PriceSum.int64 .exchange
        ((List.range m).map (floodedSchedule cmd))).mainThread.rank ≤
          MainPhase.rank .joinGateway := by
  intro cmd
  refine ⟨fair_floodedSchedule cmd, rfl, ?_⟩
  refine @busy_gateway_blocks_shutdown PriceSum.int64 .exchange (floodedSchedule cmd) 1 rfl ?_
  intro m _
  unfold floodedSchedule
  split_ifs
  · exact nofun
  · split <;> simp

end State

end ToyExchange
