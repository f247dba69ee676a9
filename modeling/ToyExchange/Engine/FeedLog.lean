import ToyExchange.Engine.Router

/-!
# The feed as a log

The matching-engine thread publishes every add and every cancel, whether or not the router acts on
it, and the trades of an add right after the add.  So the feed is a log: the commands can be read
off it (`filterMap_command?_feedOf`), and whoever has heard the feed up to some event can run a
router of their own and lacks nothing of what was heard (`replay_feedOf`).
-/

namespace ToyExchange

/-- The command that an event tells of. -/
def MarketEvent.command? : MarketEvent → Option InboundCommand
  | .orderAdd order => some (.add order)
  | .orderCancel request => some (.cancel request)
  | .trade _ => none

section Feed

variable [PriceSum]

/-- Publishing logs the commands. -/
lemma logs_publishStep : Mealy.Logs publishStep MarketEvent.command? := by
  intro r cmd
  rcases cmd with order | request
  · refine ⟨_, _, rfl, rfl, ?_⟩
    intro event hevent
    obtain ⟨t, -, rfl⟩ := List.mem_map.mp hevent
    rfl
  · exact ⟨_, [], rfl, rfl, by simp⟩

/-- The commands are read off the feed. -/
lemma filterMap_command?_feedOf (cmds : List InboundCommand) :
    (feedOf cmds).filterMap MarketEvent.command? = cmds :=
  logs_publishStep.filterMap_run _ cmds

/-- A beginning of the feed tells a beginning of the commands, and is a beginning of their feed. -/
lemma replay_feedOf {cmds : List InboundCommand} {heard : List MarketEvent}
    (h : heard <+: feedOf cmds) : heard.filterMap MarketEvent.command? <+: cmds ∧
      heard <+: feedOf (heard.filterMap MarketEvent.command?) :=
  logs_publishStep.replay _ cmds h

/-- What an event of the feed tells of is one of the commands. -/
lemma mem_of_mem_feedOf {cmds : List InboundCommand} {event : MarketEvent} {cmd : InboundCommand}
    (h : event ∈ feedOf cmds) (hcmd : event.command? = some cmd) : cmd ∈ cmds := by
  rw [← filterMap_command?_feedOf cmds]
  exact List.mem_filterMap.mpr ⟨event, h, hcmd⟩

/-- A trade event is published only for a trade that was made. -/
lemma mem_tradesOf_of_mem_feedOf {cmds : List InboundCommand} {t : Trade}
    (h : .trade t ∈ feedOf cmds) : t ∈ MatchingEngineRouter.tradesOf cmds := by
  induction cmds using List.reverseRecOn with
  | nil => cases h
  | append_singleton cmds cmd ih =>
    rw [feedOf_concat] at h
    rw [MatchingEngineRouter.tradesOf_concat, List.mem_append]
    refine (List.mem_append.mp h).imp ih fun h => ?_
    rcases cmd with order | request
    · rcases List.mem_cons.mp h with heq | hmem
      · cases heq
      · obtain ⟨t', ht', heq⟩ := List.mem_map.mp hmem
        exact MarketEvent.trade.inj heq ▸ ht'
    · cases List.mem_singleton.mp h

end Feed

end ToyExchange
