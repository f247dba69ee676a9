import ToyExchange.Engine.FeedLog
import ToyExchange.Workers.Turns

/-!
# A replica of the exchange

Whoever hears all datagrams can run a router of their own on the adds and cancels that they tell of.
`FeedLog` says that such a replica lacks nothing of what was heard; here it is compared with the
exchange itself, in whose threads the events are on their way at any time.

If no datagram is lost, then the datagrams are the events popped so far, but for one in hand
(`datagrams_eq_popped`).  The commands that the replica does not know yet are those whose events are
in the queue, one in the hand of the market-data thread and one in the hand of the matching-engine
thread (`executed_eq`).
-/

namespace ToyExchange

namespace State

section Runs

variable {c : Capacities} [PriceSum] {s s' : State c} {a : Action} {sent : List MarketEvent}

/-! ## What the datagrams leave out -/

/-- If no datagram is lost, those sent and the one in hand are the events popped. -/
lemma datagrams_eq_popped (c : Capacities) {actions : List Action}
    (h : .marketData false ∉ actions) :
    (Mealy.run step (init c) actions).2 ++ (after c actions).marketDataThread.work?.toList =
      (after c actions).marketData.popped := by
  induction actions using List.reverseRecOn with
  | nil => rfl
  | append_singleton actions a ih =>
    rw [List.mem_append, not_or, List.mem_singleton] at h
    unfold after at ih ⊢
    rw [Mealy.run_concat_fst, Mealy.run_concat_snd]
    obtain ⟨more, hpopped, hsent⟩ := (turn_step (Mealy.run step (init c) actions).1 a).sent_spec
    rcases hsent with hsent | ⟨hlost, -⟩
    · rw [hpopped, List.append_assoc, hsent, ← List.append_assoc, ih h.1]
    · exact absurd hlost.symm h.2

/-- The matching-engine thread goes on with its command or takes another one. -/
lemma Turn.todo (h : Turn s a s' sent) :
    s'.todo <:+ s.todo ∨ ∃ cmd, s'.todo = program s.router cmd := by
  -- what is done first is left out of what remains
  have htail : ∀ {action todo}, s.matchingThread = .working (action :: todo) →
      s'.matchingThread = .working todo → s'.todo <:+ s.todo := by
    intro action todo hm hm'
    rw [todo_of_working hm, todo_of_working hm']
    exact List.suffix_cons _ _
  cases h with
  | main _ hmain =>
    obtain ⟨_, _, _, _, rfl⟩ := hmain.exists_eq
    exact .inl (List.suffix_refl _)
  | matchingPolls hidle =>
    generalize hl : (s.matchingThread.poll (program s.router) s.gatewayFinished s.inbound).1 = l
    generalize hq : (s.matchingThread.poll (program s.router) s.gatewayFinished s.inbound).2 = q
    have hpolls :=
      PollLoop.polls_poll (program s.router) s.gatewayFinished s.matchingThread s.inbound
    rw [hl, hq] at hpolls
    cases hpolls with
    | takes => exact .inr ⟨_, rfl⟩
    | rests => exact .inl (List.suffix_refl _)
    | _ => exact .inl (List.nil_suffix)
  | publishes hm => exact .inl (htail hm rfl)
  | queuesTrade hm => exact .inl (htail hm rfl)
  | commits hm => exact .inl (htail hm rfl)
  | completes => exact .inl List.nil_suffix
  | _ => exact .inl (List.suffix_refl _)

/-- The commands that are still to be published. -/
def unpublished (s : State c) : List InboundCommand :=
  (s.todo.filterMap EngineAction.event?).filterMap MarketEvent.command?

/-- A command publishes itself once. -/
lemma commands_program (r : MatchingEngineRouter) (cmd : InboundCommand) :
    ((program r cmd).filterMap EngineAction.event?).filterMap MarketEvent.command? = [cmd] := by
  obtain ⟨o, rest, hout, hread, hrest⟩ := logs_publishStep r cmd
  rw [events_program]
  change (publishStep r cmd).2.filterMap MarketEvent.command? = [cmd]
  rw [hout, List.filterMap_cons_some hread, List.filterMap_eq_nil_iff.mpr hrest]

/-- At most one command is still to be published. -/
lemma length_unpublished_le (c : Capacities) (actions : List Action) :
    (after c actions).unpublished.length ≤ 1 := by
  refine Mealy.run_invariant (P := fun s : State c => s.unpublished.length ≤ 1) ?_ (s := init c)
    (Nat.zero_le 1) actions
  intro s a hs
  rcases (turn_step s a).todo with hsuffix | ⟨cmd, hprogram⟩
  · exact ((hsuffix.sublist.filterMap _).filterMap _).length_le.trans hs
  · rw [unpublished, hprogram, commands_program]
    rfl

/-- The commands taken are those that the datagrams tell of, those whose events are in hand or in
the queue, and the one still to be published. -/
lemma executed_eq (c : Capacities) {actions : List Action} (h : .marketData false ∉ actions) :
    (after c actions).inbound.popped =
      (Mealy.run step (init c) actions).2.filterMap MarketEvent.command? ++
        ((after c actions).marketDataThread.work?.toList.filterMap MarketEvent.command? ++
        ((after c actions).marketData.items.filterMap MarketEvent.command? ++
          (after c actions).unpublished)) := by
  have hevents := (inOrder_after c actions).events
  rw [(after c actions).marketData.history, ← datagrams_eq_popped c h] at hevents
  have hlog := filterMap_command?_feedOf (after c actions).inbound.popped
  rw [← hevents] at hlog
  simp only [List.filterMap_append, List.append_assoc] at hlog
  exact hlog.symm

/-! ## The replica -/

/-- **A replica follows the exchange.**  If no datagram is lost, then at every point of every
interleaving a replica that runs on the adds and cancels of the datagrams has executed a beginning
of the commands of the exchange, all but as many as fit into the market-data queue and two; it
knows everything it was told; and whenever nothing is in hand or in the queue its router is the
router of the exchange. -/
theorem replica_follows (c : Capacities) (actions : List Action)
    (h : .marketData false ∉ actions) :
    let heard := (Mealy.run step (init c) actions).2
    let log := heard.filterMap MarketEvent.command?
    log <+: (after c actions).inbound.popped ∧
    (after c actions).inbound.popped.length ≤ log.length + c.marketData + 2 ∧
    heard <+: feedOf log ∧
    ((after c actions).matchingThread.work? = none →
      (after c actions).marketDataThread.work? = none → (after c actions).marketData.items = [] →
      log = (after c actions).inbound.popped ∧
        MatchingEngineRouter.after log = (after c actions).router) := by
  intro heard log
  have hexecuted := executed_eq c h
  have hpopped : heard <+: feedOf (after c actions).inbound.popped := by
    refine List.IsPrefix.trans ⟨_, datagrams_eq_popped c h⟩ ?_
    exact (BoundedFifo.popped_prefix _).trans ⟨_, (inOrder_after c actions).events⟩
  refine ⟨⟨_, hexecuted.symm⟩, ?_, (replay_feedOf hpopped).2, ?_⟩
  · have hhand := List.length_filterMap_le MarketEvent.command?
      (after c actions).marketDataThread.work?.toList
    have hone : (after c actions).marketDataThread.work?.toList.length ≤ 1 :=
      Option.length_toList_le
    have hqueue := List.length_filterMap_le MarketEvent.command? (after c actions).marketData.items
    have hbounded := (after c actions).marketData.bounded
    have hunpublished := length_unpublished_le c actions
    have hlength := congrArg List.length hexecuted
    simp only [List.length_append] at hlength
    change _ = log.length + _ at hlength
    omega
  · intro hmatching hmarketData hitems
    have htodo := todo_of_idle hmatching
    have hlog : log = (after c actions).inbound.popped := by
      rw [hexecuted, hmarketData, hitems, unpublished, htodo]
      exact (List.append_nil _).symm
    have hrouter := (inOrder_after c actions).router
    rw [htodo] at hrouter
    exact ⟨hlog, hlog ▸ hrouter.symm⟩

end Runs

/-- An add is executed and its event sent: the replica has the order in its book. -/
theorem replica_follows_one_add :
    let actions : List Action :=
      [.gateway none, .gateway (some (.add ⟨1, 1, .aapl, .sell, 101, 5⟩)), .gateway none,
        .matching, .matching, .matching, .matching, .marketData true, .marketData true]
    let heard := (Mealy.run (@step .exchange PriceSum.int64) (init .exchange) actions).2
    let log := heard.filterMap MarketEvent.command?
    log = [.add ⟨1, 1, .aapl, .sell, 101, 5⟩] ∧
      @MatchingEngineRouter.after PriceSum.int64 log =
        (@after PriceSum.int64 .exchange actions).router := by
  intro actions heard log
  refine ⟨by decide, ?_⟩
  exact ((@replica_follows PriceSum.int64 .exchange actions (by simp [actions])).2.2.2 (by decide)
    (by decide) (by decide)).2

end State

end ToyExchange
