import ToyExchange.Engine.MidPrice
import ToyExchange.Engine.Provenance
import ToyExchange.Workers.Fills

/-!
# Every settled trade is marked to market

The inventory thread marks the holdings of maker and taker to market if it reads a mid price.  It
always does: the maker of the trade rested before, so a mid price was published before the trade was
made, and none is ever withdrawn (`exists_published_of_working`).  The state of the router that
other threads see is behind the commands taken by at most the command in hand (`Published`).

The load of the mid price is not one step of the thread.  `MayLoad` lets it return any value that
was published from the moment the trade was taken, and `MayHold` are the registries that a run may
lead to with such loads; the registry of the run itself is one of them (`mayHold_after`).
-/

namespace ToyExchange

namespace Holding

/-- The unrealized profit is that of the open position at the mid price. -/
def Marked (h : Holding) (mid : ℤ) : Prop :=
  h.unrealizedPnl = (h.volume : ℚ) * (toUsd mid - h.avgCost)

/-- Without a position there is no cost and no unrealized profit. -/
def Clear (h : Holding) : Prop := h.volume = 0 → h.avgCost = 0 ∧ h.unrealizedPnl = 0

/-- Marking a holding to market that was filled before clears it if the position is closed. -/
lemma clear_refresh_applyFill (h : Holding) (side : Side) (execPrice tradeVolume mid : ℤ) :
    ((h.applyFill side execPrice tradeVolume).refreshUnrealizedPnl mid).Clear := by
  intro hflat
  have hvolume : (h.applyFill side execPrice tradeVolume).volume = 0 := hflat
  refine ⟨applyFill_avgCost_of_flat hvolume, ?_⟩
  unfold refreshUnrealizedPnl
  dsimp only
  rw [hvolume, Int.cast_zero, zero_mul]

end Holding

/-! ## The holdings after a settlement -/

namespace UserRegistry

variable {maker taker user : Fin marketParticipantCount}

/-- The holdings of maker and taker after the legs of a trade have just been filled. -/
lemma exists_applyFill_of_party (r : UserRegistry) (t : Trade)
    (huser : user = maker ∨ user = taker) :
    ∃ (h : Holding) (side : Side), ((r.applyTrade maker taker t).users user).holding t.ticker =
      h.applyFill side t.executionPrice t.volume := by
  unfold applyTrade
  dsimp only
  rw [users_modify]
  split_ifs with htaker
  · rw [User.holding_applyFill, if_pos rfl]
    exact ⟨_, _, rfl⟩
  · -- only the taker's leg could be made after the maker's, and this is not the taker
    rw [users_modify, if_pos (huser.resolve_right htaker), User.holding_applyFill, if_pos rfl]
    exact ⟨_, _, rfl⟩

/-- A trade leaves the holdings in other tickers and those of other users alone. -/
lemma holding_applyTrade_of_ne (r : UserRegistry) (t : Trade) {ticker : Ticker}
    (h : ¬ (ticker = t.ticker ∧ (user = maker ∨ user = taker))) :
    ((r.applyTrade maker taker t).users user).holding ticker =
      (r.users user).holding ticker := by
  have hleg : ∀ (r : UserRegistry) (i : Fin marketParticipantCount) (side : Side),
      ¬ (ticker = t.ticker ∧ user = i) →
      ((r.modify i fun u => u.applyFill t.ticker side t.executionPrice t.volume).users user).holding
        ticker = (r.users user).holding ticker := by
    intro r i side hne
    rw [users_modify]
    split_ifs with hi
    · rw [User.holding_applyFill, if_neg fun ht => hne ⟨ht, hi⟩]
    · rfl
  have hmaker : ¬ (ticker = t.ticker ∧ user = maker) := fun hm => h ⟨hm.1, .inl hm.2⟩
  have htaker : ¬ (ticker = t.ticker ∧ user = taker) := fun ht => h ⟨ht.1, .inr ht.2⟩
  exact (hleg _ taker t.takerSide htaker).trans (hleg r maker t.takerSide.opposite hmaker)

/-- Marking to market refreshes the holdings of maker and taker in the ticker and no other. -/
lemma holding_markToMarket (r : UserRegistry) (ticker k : Ticker) (mid : ℤ) :
    ((r.markToMarket maker taker ticker (some mid)).users user).holding k =
      if k = ticker ∧ (user = maker ∨ user = taker)
      then ((r.users user).holding k).refreshUnrealizedPnl mid else (r.users user).holding k := by
  have hone : ∀ (r : UserRegistry) (i : Fin marketParticipantCount),
      ((r.modify i fun u => u.refreshUnrealizedPnl ticker mid).users user).holding k =
        if k = ticker ∧ user = i then ((r.users user).holding k).refreshUnrealizedPnl mid
        else (r.users user).holding k := by
    intro r i
    rw [users_modify]
    by_cases hi : user = i
    · rw [if_pos hi, User.holding_refreshUnrealizedPnl]
      simp only [hi, and_true]
    · rw [if_neg hi, if_neg fun h => hi h.2]
  unfold markToMarket
  dsimp only
  rw [hone, hone]
  by_cases hk : k = ticker
  · by_cases hmaker : user = maker
    · by_cases htaker : user = taker
      · -- maker and taker are one user, who is refreshed twice
        rw [if_pos ⟨hk, htaker⟩, if_pos ⟨hk, hmaker⟩, if_pos ⟨hk, .inl hmaker⟩]
        rfl
      · rw [if_neg fun h => htaker h.2, if_pos ⟨hk, hmaker⟩, if_pos ⟨hk, .inl hmaker⟩]
    · simp only [hk, hmaker, true_and, false_or, if_false]
  · rw [if_neg fun h => hk h.1, if_neg fun h => hk h.1, if_neg fun h => hk h.1]

/-- After a settlement with a mid price, the holdings of maker and taker are marked to it. -/
theorem marked_settle (r : UserRegistry) {t : Trade} (mid : ℤ) (hmaker : get t.makerId = some maker)
    (htaker : get t.takerId = some taker) (huser : user = maker ∨ user = taker) :
    (((r.settle t (some mid)).registry.users user).holding t.ticker).Marked mid := by
  unfold settle
  rw [hmaker, htaker]
  dsimp only
  rw [holding_markToMarket, if_pos ⟨rfl, huser⟩]
  rfl

/-- A settlement with a mid price keeps the holdings clear. -/
theorem clear_settle {r : UserRegistry} (hr : ∀ user ticker, ((r.users user).holding ticker).Clear)
    (t : Trade) (mid : ℤ) (user : Fin marketParticipantCount) (ticker : Ticker) :
    (((r.settle t (some mid)).registry.users user).holding ticker).Clear := by
  cases hthrew : (r.settle t (some mid)).threw with
  | true =>
    rw [settle_of_throws hthrew]
    exact hr user ticker
  | false =>
    obtain ⟨maker, taker, -, -, hregistry⟩ := settle_of_not_throws hthrew
    rw [hregistry, holding_markToMarket]
    split_ifs with hparty
    · obtain ⟨rfl, huser⟩ := hparty
      obtain ⟨h, side, heq⟩ := r.exists_applyFill_of_party t huser
      rw [heq]
      exact h.clear_refresh_applyFill side t.executionPrice t.volume mid
    · rw [holding_applyTrade_of_ne r t hparty]
      exact hr user ticker

end UserRegistry

/-! ## Mid prices before trades -/

namespace MatchingEngineRouter

variable [PriceSum]

/-- No engine of a run has a stale mid price. -/
lemma fresh_engines (cmds : List InboundCommand) (i : Fin instruments.length) :
    ((after cmds).engines i).Fresh :=
  Mealy.run_invariant (P := fun r : MatchingEngineRouter => ∀ i, (r.engines i).Fresh)
    (fun _ cmd hr => forall_engines_step (P := fun _ e => e.Fresh) cmd
      (fun _ _ h => MatchingEngine.fresh_step h cmd) hr)
    (fun _ => MatchingEngine.fresh_empty) cmds i

/-- When a trade is made, its ticker has a mid price already: the maker rests. -/
lemma midPrice_isSome_of_mem_step {cmds : List InboundCommand} {cmd : InboundCommand} {t : Trade}
    (ht : t ∈ ((after cmds).step cmd).2) : ((after cmds).midPrice t.ticker).isSome := by
  cases hplace : place cmd.ticker with
  | none =>
    rw [step_of_unlisted _ cmd hplace] at ht
    cases ht
  | some i =>
    rw [step_of_place _ cmd hplace] at ht
    cases cmd with
    | cancel request => cases ht
    | add order =>
      have he := (sound_engines cmds i).noEmptyLevel
      obtain ⟨o, ho, -, traded, rfl⟩ := MatchingEngine.exists_maker_of_mem_onOrderAdd he ht
      have hmem : o ∈ ((after cmds).engines i).orders :=
        MatchingEngine.mem_orders.mpr ((MatchingEngine.side_of_mem_live ho).symm ▸ ho)
      have htop : ((after cmds).engines i).top ≠ none := by
        rw [Ne, MatchingEngine.top_eq_none_iff he]
        exact List.ne_nil_of_mem hmem
      have hfresh := fresh_engines cmds i
      have hticker : place (o.tradeWith order traded).ticker = some i := hplace
      rw [midPrice, hticker]
      dsimp only
      rw [← hfresh]
      cases hcases : ((after cmds).engines i).top with
      | none => exact absurd hcases htop
      | some price => rfl

/-- A mid price is not withdrawn by a command. -/
lemma midPrice_isSome_concat {cmds : List InboundCommand} (cmd : InboundCommand) {ticker : Ticker}
    (h : ((after cmds).midPrice ticker).isSome) :
    ((after (cmds ++ [cmd])).midPrice ticker).isSome := by
  cases hplace : place ticker with
  | none =>
    rw [midPrice, hplace] at h
    cases h
  | some i =>
    rw [midPrice, hplace] at h ⊢
    rw [after_concat]
    refine (forall_engines_step
      (P := fun j e => j = i → e.Fresh ∧ e.midPrice.isSome) cmd (fun j e he hj => ?_)
      (fun j hj => ?_) i rfl).2
    · obtain ⟨hfresh, hsome⟩ := he hj
      exact ⟨MatchingEngine.fresh_step hfresh cmd,
        MatchingEngine.midPrice_isSome_step hfresh cmd hsome⟩
    · subst hj
      exact ⟨fresh_engines cmds j, h⟩

/-- A mid price is not withdrawn in the course of a run. -/
lemma midPrice_isSome_of_prefix {pre cmds : List InboundCommand} (hpre : pre <+: cmds)
    {ticker : Ticker} (h : ((after pre).midPrice ticker).isSome) :
    ((after cmds).midPrice ticker).isSome := by
  obtain ⟨rest, rfl⟩ := hpre
  induction rest using List.reverseRecOn with
  | nil =>
    rw [List.append_nil]
    exact h
  | append_singleton rest cmd ih =>
    rw [← List.append_assoc]
    exact midPrice_isSome_concat cmd ih

/-- All trades of the commands taken have a mid price in the router that is behind them by at most
one command. -/
theorem midPrice_isSome_of_mem_tradesOf {done cmds : List InboundCommand} (hdone : done <+: cmds)
    (hlength : cmds.length ≤ done.length + 1) :
    ∀ t ∈ tradesOf cmds, ((after done).midPrice t.ticker).isSome := by
  refine forall_mem_tradesOf fun pre cmd hpre t ht => ?_
  have hshort : pre.length ≤ done.length := by
    have hle := hpre.length_le
    rw [List.length_append, List.length_singleton] at hle
    omega
  have hpre' : pre <+: cmds := (List.prefix_append pre [cmd]).trans hpre
  exact midPrice_isSome_of_prefix (List.prefix_of_prefix_length_le hpre' hdone hshort)
    (midPrice_isSome_of_mem_step ht)

end MatchingEngineRouter

/-! ## What other threads see of the router -/

section Program

variable [PriceSum]

/-- A command commits the router that its step leads to. -/
lemma eq_step_of_commit_mem_program {r r' : MatchingEngineRouter} {cmd : InboundCommand}
    (h : .commit r' ∈ program r cmd) : r' = (r.step cmd).1 := by
  cases cmd with
  | add order =>
    rcases List.mem_append.mp h with h | h
    · rcases List.mem_cons.mp h with h | h
      · cases h
      · obtain ⟨t, -, ht⟩ := List.mem_flatMap.mp h
        rcases List.mem_cons.mp ht with ht | ht
        · cases ht
        · cases List.mem_singleton.mp ht
    · cases List.mem_singleton.mp h
      rfl
  | cancel request =>
    rcases List.mem_cons.mp h with h | h
    · cases h
      rfl
    · cases List.mem_singleton.mp h

end Program

namespace State

section Runs

variable {c : Capacities} [PriceSum]

/-- The router that other threads see is the one that the commands taken lead to, or all of them but
the one in hand. -/
structure Published (s : State c) : Prop where
  router : ∃ done, done <+: s.inbound.popped ∧ s.inbound.popped.length ≤ done.length + 1 ∧
    s.router = MatchingEngineRouter.after done
  commits : ∀ r, .commit r ∈ s.todo → r = MatchingEngineRouter.after s.inbound.popped

lemma published_init : (init c).Published where
  router := ⟨[], List.nil_prefix, Nat.zero_le _, rfl⟩
  commits r hr := by cases hr

/-- The property is kept by a move that takes no command and publishes nothing. -/
lemma Published.of_eq {s s' : State c} (h : s.Published) (hrouter : s'.router = s.router)
    (hpopped : s'.inbound.popped = s.inbound.popped) (htodo : s'.todo ⊆ s.todo) :
    s'.Published := by
  constructor
  · rw [hrouter, hpopped]
    exact h.router
  · intro r hr
    rw [hpopped]
    exact h.commits r (htodo hr)

/-- A command is taken only when all before it have been published. -/
lemma published_takes {s : State c} (horder : s.InOrder) (hidle : s.matchingThread.work? = none)
    {cmd : InboundCommand} {q : BoundedFifo InboundCommand c.inbound}
    (hpop : s.inbound.pop = some (cmd, q)) :
    Published { s with matchingThread := .working (program s.router cmd), inbound := q } := by
  have hpopped := (BoundedFifo.pop_eq_some hpop).2.1
  have hrouter : s.router = MatchingEngineRouter.after s.inbound.popped := by
    have hcommitted := horder.router
    rw [todo_of_idle hidle] at hcommitted
    exact hcommitted
  constructor
  · refine ⟨s.inbound.popped, ?_, ?_, hrouter⟩
    · rw [hpopped]
      exact List.prefix_append _ _
    · rw [hpopped, List.length_append, List.length_singleton]
  · intro r hr
    have hstep := eq_step_of_commit_mem_program (show .commit r ∈ program s.router cmd from hr)
    rw [hpopped, MatchingEngineRouter.after_concat, ← hrouter]
    exact hstep

/-- Every move keeps what is published in step with the commands taken. -/
lemma published_move {s s' : State c} (horder : s.InOrder) (h : s.Published) (hmove : Move s s') :
    s'.Published := by
  cases hmove with
  | dispatches _ hpush =>
    exact h.of_eq rfl (BoundedFifo.push_eq_some hpush).2.1 (List.Subset.refl _)
  | matchingPolls hidle hpoll =>
    cases hpoll with
    | takes _ hpop => exact published_takes horder hidle hpop
    | misses | leaves | retries => exact h.of_eq rfl rfl (List.nil_subset _)
    | rests => exact h
  | publishes hm | queuesTrade hm =>
    refine h.of_eq rfl rfl ?_
    rw [todo_of_working hm]
    exact List.subset_cons_self _ _
  | @commits router todo hm =>
    have htodo := todo_of_working hm
    have hrouter : router = MatchingEngineRouter.after s.inbound.popped :=
      h.commits router (htodo ▸ List.mem_cons_self ..)
    refine ⟨⟨s.inbound.popped, List.prefix_refl _, Nat.le_succ _, hrouter⟩, fun r hr => ?_⟩
    exact h.commits r (htodo ▸ List.mem_cons_of_mem _ hr)
  | completes hm => exact h.of_eq rfl rfl (List.nil_subset _)
  | main hmain =>
    obtain ⟨_, _, _, _, rfl⟩ := hmain.exists_eq
    exact h.of_eq rfl rfl (List.Subset.refl _)
  | _ => exact h.of_eq rfl rfl (List.Subset.refl _)

theorem published_after (c : Capacities) (actions : List Action) :
    (after c actions).Published := by
  refine (after_invariant (P := fun s => s.InOrder ∧ s.Published)
    ⟨inOrder_init, published_init⟩ (fun s s' h hmove => ?_) actions).2
  exact ⟨inOrder_move h.1 hmove, published_move h.1 h.2 hmove⟩

/-- While the inventory thread has a trade in hand, the router holds a mid price for it, which the
engine published after some of the commands taken. -/
theorem exists_published_of_working {actions : List Action} {t : Trade}
    (ht : (after c actions).inventoryThread = .working t) :
    ∃ mid done, (after c actions).router.midPrice t.ticker = some mid ∧
      done <+: (after c actions).inbound.popped ∧
      (MatchingEngineRouter.after done).midPrice t.ticker = some mid := by
  obtain ⟨done, hdone, hlength, hrouter⟩ := (published_after c actions).router
  have hsome := MatchingEngineRouter.midPrice_isSome_of_mem_tradesOf hdone hlength t
    (mem_tradesOf_of_working ht)
  obtain ⟨mid, hmid⟩ := Option.isSome_iff_exists.mp hsome
  exact ⟨mid, done, hrouter ▸ hmid, hdone, hmid⟩

/-! ## Loads -/

/-- The load of the mid price for the trade in hand may return this value: it was the one published
at some moment since the trade was taken. -/
def MayLoad (c : Capacities) (actions : List Action) (t : Trade) (mid : Option ℤ) : Prop :=
  ∃ moment, moment <+: actions ∧
    (∀ between, moment <+: between → between <+: actions →
      (after c between).inventoryThread = .working t) ∧
    mid = (after c moment).router.midPrice t.ticker

/-- The registries that an interleaving may lead to. -/
inductive MayHold (c : Capacities) : List Action → UserRegistry → Prop
  | start : MayHold c [] .fresh
  /-- No trade is settled in this step. -/
  | other {actions : List Action} {a : Action} {r : UserRegistry} (h : MayHold c actions r)
      (hsame : (after c (actions ++ [a])).settled = (after c actions).settled) :
      MayHold c (actions ++ [a]) r
  /-- The trade in hand is settled with a mid price that was loaded for it. -/
  | settles {actions : List Action} {a : Action} {r : UserRegistry} {t : Trade} {mid : Option ℤ}
      (h : MayHold c actions r) (ht : (after c actions).inventoryThread = .working t)
      (hsettles : (after c (actions ++ [a])).settled.map Prod.fst =
        (after c actions).settled.map Prod.fst ++ [t])
      (hload : MayLoad c actions t mid) :
      MayHold c (actions ++ [a]) (r.settle t mid).registry

lemma after_concat (c : Capacities) (actions : List Action) (a : Action) :
    after c (actions ++ [a]) = ((after c actions).step a).1 := Mealy.run_concat_fst _ actions a

/-- A move settles the trade in hand, or leaves the registry alone. -/
lemma Move.settles_or {s s' : State c} (h : Move s s') :
    (s'.settled = s.settled ∧ s'.registry = s.registry) ∨
      ∃ t, s.inventoryThread = .working t ∧
        s'.settled = s.settled ++ [(t, s.router.midPrice t.ticker)] ∧
        s'.registry = (s.registry.settle t (s.router.midPrice t.ticker)).registry := by
  cases h with
  | settles hi => exact .inr ⟨_, hi, rfl, rfl⟩
  | main hmain =>
    obtain ⟨_, _, _, _, rfl⟩ := hmain.exists_eq
    exact .inl ⟨rfl, rfl⟩
  | _ => exact .inl ⟨rfl, rfl⟩

/-- The value held at the moment of the settlement is one that may be loaded. -/
lemma mayLoad_now {actions : List Action} {t : Trade}
    (ht : (after c actions).inventoryThread = .working t) :
    MayLoad c actions t ((after c actions).router.midPrice t.ticker) := by
  refine ⟨actions, List.prefix_refl _, fun between hle hge => ?_, rfl⟩
  rw [← hle.eq_of_length (le_antisymm hle.length_le hge.length_le)]
  exact ht

/-- The registry of the run itself is one that it may lead to. -/
theorem mayHold_after (c : Capacities) (actions : List Action) :
    MayHold c actions (after c actions).registry := by
  induction actions using List.reverseRecOn with
  | nil => exact .start
  | append_singleton actions a ih =>
    have hmove := move_step (after c actions) a
    rw [← after_concat] at hmove
    rcases hmove.settles_or with ⟨hsettled, hregistry⟩ | ⟨t, ht, hsettled, hregistry⟩
    · rw [hregistry]
      exact .other ih hsettled
    · rw [hregistry]
      refine .settles ih ht ?_ (mayLoad_now ht)
      rw [hsettled, List.map_append]
      rfl

/-- Commands that were taken stay taken. -/
lemma Move.keeps_popped {s s' : State c} (h : Move s s') :
    s.inbound.popped <+: s'.inbound.popped := by
  cases h with
  | dispatches _ hpush =>
    rw [(BoundedFifo.push_eq_some hpush).2.1]
  | matchingPolls _ hpoll =>
    cases hpoll with
    | takes _ hpop =>
      rw [(BoundedFifo.pop_eq_some hpop).2.1]
      exact List.prefix_append _ _
    | misses | leaves | retries | rests => exact List.prefix_refl _
  | main hmain =>
    obtain ⟨_, _, _, _, rfl⟩ := hmain.exists_eq
    exact List.prefix_refl _
  | _ => exact List.prefix_refl _

/-- What the inventory thread loads is a mid price that the engine published after some of the
commands taken. -/
lemma exists_of_mayLoad {actions : List Action} {t : Trade} {mid : Option ℤ}
    (h : MayLoad c actions t mid) :
    ∃ m done, mid = some m ∧ done <+: (after c actions).inbound.popped ∧
      (MatchingEngineRouter.after done).midPrice t.ticker = some m := by
  obtain ⟨moment, hmoment, hworking, rfl⟩ := h
  obtain ⟨m, done, hmid, hdone, hpublished⟩ :=
    exists_published_of_working (hworking moment (List.prefix_refl _) hmoment)
  have hpopped : (after c moment).inbound.popped <+: (after c actions).inbound.popped :=
    Mealy.run_climbs (R := fun s s' : State c => s.inbound.popped <+: s'.inbound.popped)
      (fun _ => List.prefix_refl _) (fun _ _ _ => List.IsPrefix.trans)
      (fun s a => (move_step s a).keeps_popped) (init c) hmoment
  exact ⟨m, done, hmid, hdone.trans hpopped, hpublished⟩

/-- In every registry that a run may lead to, a closed position has no cost and no unrealized
profit. -/
theorem clear_of_mayHold {actions : List Action} {r : UserRegistry} (h : MayHold c actions r)
    (user : Fin marketParticipantCount) (ticker : Ticker) :
    ((r.users user).holding ticker).Clear := by
  induction h generalizing user ticker with
  | start => exact fun _ => ⟨rfl, rfl⟩
  | other _ _ ih => exact ih user ticker
  | settles _ _ _ hload ih =>
    obtain ⟨m, -, rfl, -⟩ := exists_of_mayLoad hload
    exact UserRegistry.clear_settle ih _ m user ticker

/-- **Every settled trade is marked to market.**  Take any interleaving, and any registry it may
lead to with loads of the mid price that return a value published since the trade was taken.  Every
holding without a position has no cost and no unrealized profit.  While the inventory thread has a
trade in hand, the router holds a mid price for its ticker; whatever is loaded for it is a mid price
`m` that the engine published after some of the commands taken, and settling the trade leaves the
holdings of maker and taker marked to `m`. -/
theorem settled_trades_marked (c : Capacities) (actions : List Action) (r : UserRegistry)
    (h : MayHold c actions r) :
    (∀ user ticker, ((r.users user).holding ticker).volume = 0 →
      ((r.users user).holding ticker).avgCost = 0 ∧
        ((r.users user).holding ticker).unrealizedPnl = 0) ∧
      ∀ t, (after c actions).inventoryThread = .working t →
        ((after c actions).router.midPrice t.ticker).isSome ∧
        ∀ mid, MayLoad c actions t mid → ∃ m, mid = some m ∧
          (∃ done, done <+: (after c actions).inbound.popped ∧
            (MatchingEngineRouter.after done).midPrice t.ticker = some m) ∧
          ∀ maker taker, UserRegistry.get t.makerId = some maker →
            UserRegistry.get t.takerId = some taker →
            (((r.settle t mid).registry.users maker).holding t.ticker).Marked m ∧
              (((r.settle t mid).registry.users taker).holding t.ticker).Marked m := by
  refine ⟨fun user ticker => clear_of_mayHold h user ticker, fun t ht => ⟨?_, fun mid hload => ?_⟩⟩
  · obtain ⟨m, -, hmid, -⟩ := exists_published_of_working ht
    rw [hmid]
    rfl
  · obtain ⟨m, done, rfl, hdone, hpublished⟩ := exists_of_mayLoad hload
    refine ⟨m, rfl, ⟨done, hdone, hpublished⟩, fun maker taker hmaker htaker => ⟨?_, ?_⟩⟩
    · exact r.marked_settle m hmaker htaker (.inl rfl)
    · exact r.marked_settle m hmaker htaker (.inr rfl)

end Runs

/-- An ask and a bid that crosses it; the inventory thread has taken the trade and loads the mid
price of the ask. -/
theorem settled_trades_marked_one_trade :
    let ask : InboundCommand := .add ⟨1, 1, .aapl, .sell, 100, 10⟩
    let bid : InboundCommand := .add ⟨2, 2, .aapl, .buy, 101, 4⟩
    let actions : List Action :=
      List.flatten [
        [.gateway none, .gateway (some ask), .gateway none, .gateway (some bid), .gateway none],
        List.replicate 12 .matching, [.inventory]]
    let s := @after PriceSum.int64 .exchange actions
    let t : Trade := ⟨1, 2, 1, 2, .aapl, .buy, 100, 4⟩
    s.inventoryThread = .working t ∧
      ∃ m, s.router.midPrice .aapl = some m ∧
        (((s.registry.settle t (some m)).registry.users ⟨1, by decide⟩).holding .aapl).Marked m ∧
        (((s.registry.settle t (some m)).registry.users ⟨2, by decide⟩).holding .aapl).Marked
          m := by
  intro ask bid actions s t
  have ht : s.inventoryThread = .working t := PollLoop.eq_working_of_work? (by decide +kernel)
  obtain ⟨-, hmarked⟩ := @settled_trades_marked PriceSum.int64 .exchange actions s.registry
    (@mayHold_after PriceSum.int64 .exchange actions)
  obtain ⟨-, hload⟩ := hmarked t ht
  obtain ⟨m, hmid, -, hparties⟩ := hload _ (@mayLoad_now .exchange PriceSum.int64 actions t ht)
  obtain ⟨hmaker, htaker⟩ := hparties ⟨1, by decide⟩ ⟨2, by decide⟩ (by decide) (by decide)
  rw [hmid] at hmaker htaker
  exact ⟨ht, m, hmid, hmaker, htaker⟩

end State

end ToyExchange
