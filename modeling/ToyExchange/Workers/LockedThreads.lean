import ToyExchange.Core.Seqlock
import ToyExchange.Engine.MidPrice
import ToyExchange.Workers.Turns

/-!
# Threads with seqlocks

`State` lets the matching-engine thread publish a mid price in one step and the inventory thread
read it in one step.  In the exchange each mid price is in a seqlock, and both take several accesses
to memory in any interleaving with the other threads.  `Locked` is the exchange with these accesses:
the last thing that the matching-engine thread does in the engine is a `Store`, access by access,
and the inventory thread settles a trade with what its `Load` returns.

What is stored is read off the engine (`MatchingEngine.stored?`): `UpdateMidPrice` is not called for
a rejected cancel and stores nothing for an empty book.  `State.Executing` says that the thread
works on the command that it has taken last, so the machine knows what its `Store` is about
(`State.step_of_storing`), and the inventory thread settles with the mid price it has loaded
(`State.step_of_loading`).
-/

namespace ToyExchange

/-! ## What is stored -/

section Stored

variable [PriceSum]

/-- What `UpdateMidPrice` stores for a command: nothing if it is not called or the book is empty. -/
def MatchingEngine.stored? (e : MatchingEngine) : InboundCommand → Option ℤ
  | .add order => (e.onOrderAdd order).1.top
  | .cancel request =>
    match e.orderIndex request.orderId with
    | none => none
    | some location =>
      if location.userId ≠ request.userId then none else (e.onOrderCancel request).top

/-- After a command the mid price is what was stored, or what it was. -/
lemma MatchingEngine.midPrice_step_eq (e : MatchingEngine) (cmd : InboundCommand) :
    (e.step cmd).1.midPrice = (e.stored? cmd).or e.midPrice := by
  rcases cmd with order | request
  · exact midPrice_onOrderAdd e order
  · by_cases h : ∃ location, e.Accepts request location
    · obtain ⟨location, h⟩ := h
      have hstored : e.stored? (.cancel request) = (e.onOrderCancel request).top := by
        simp [stored?, h.1, h.2]
      rw [hstored]
      exact midPrice_onOrderCancel h
    · have hstored : e.stored? (.cancel request) = none := by
        rw [stored?]
        split
        · rfl
        · case _ location hlocation =>
          exact if_pos fun huser => h ⟨location, hlocation, huser⟩
      rw [hstored, step, onOrderCancel_of_not_accepts fun location hl => h ⟨location, hl⟩]
      rfl

/-- The mid price that a command stores, and the engine that stores it. -/
def MatchingEngineRouter.stored? (r : MatchingEngineRouter) (cmd : InboundCommand) :
    Option (Fin instruments.length × ℤ) :=
  match place cmd.ticker with
  | none => none
  | some i => ((r.engines i).stored? cmd).map (Prod.mk i)

/-- A command that stores nothing leaves all mid prices as they are. -/
lemma MatchingEngineRouter.midPrice_step_of_not_stored {r : MatchingEngineRouter}
    {cmd : InboundCommand} (h : r.stored? cmd = none) (j : Fin instruments.length) :
    ((r.step cmd).1.engines j).midPrice = (r.engines j).midPrice := by
  unfold stored? at h
  split at h
  · case _ hplace => rw [step_of_unlisted r cmd hplace]
  · case _ i hplace =>
    rw [step_of_place r cmd hplace]
    by_cases hj : j = i
    · rw [hj, engines_set_self, MatchingEngine.midPrice_step_eq, Option.map_eq_none_iff.mp h]
      rfl
    · rw [engines_set_of_ne r hj]

/-- A command that stores a mid price changes no other one. -/
lemma MatchingEngineRouter.midPrice_step_of_stored {r : MatchingEngineRouter}
    {cmd : InboundCommand} {i : Fin instruments.length} {mid : ℤ}
    (h : r.stored? cmd = some (i, mid)) (j : Fin instruments.length) :
    ((r.step cmd).1.engines j).midPrice = if j = i then some mid else (r.engines j).midPrice := by
  unfold stored? at h
  split at h
  · cases h
  · case _ k hplace =>
    obtain ⟨mid', hstored, heq⟩ := Option.map_eq_some_iff.mp h
    obtain ⟨rfl, rfl⟩ := Prod.mk.inj heq
    rw [step_of_place r cmd hplace]
    split_ifs with hj
    · rw [hj, engines_set_self, MatchingEngine.midPrice_step_eq, hstored]
      rfl
    · rw [engines_set_of_ne r hj]

end Stored

/-! ## The command in hand -/

/-- The router that an action leaves behind. -/
def EngineAction.commit? : EngineAction → Option MatchingEngineRouter
  | .commit router => some router
  | _ => none

section Executing

variable [PriceSum]

/-- A command commits once, what the router makes of it. -/
lemma commits_program (r : MatchingEngineRouter) (cmd : InboundCommand) :
    (program r cmd).filterMap EngineAction.commit? = [(r.step cmd).1] := by
  rcases cmd with order | request
  · have htrades : ((r.onOrderAdd order).2.flatMap fun t =>
        [EngineAction.publish (.trade t), .queueTrade t]).filterMap EngineAction.commit? = [] := by
      rw [List.filterMap_eq_nil_iff]
      intro action haction
      obtain ⟨t, -, hmem⟩ := List.mem_flatMap.mp haction
      rcases List.mem_cons.mp hmem with rfl | hmem
      · rfl
      · rw [List.mem_singleton.mp hmem]
        rfl
    rw [program, List.cons_append, List.filterMap_cons_none rfl, List.filterMap_append, htrades]
    rfl
  · rfl

namespace State

variable {c : Capacities} {s s' : State c} {a : Action} {sent : List MarketEvent}

/-- What is still to be committed is what the router makes of the command taken last. -/
def Executing (s : State c) : Prop :=
  s.todo.filterMap EngineAction.commit? = [] ∨
    ∃ cmd, s.inbound.popped.getLast? = some cmd ∧
      s.todo.filterMap EngineAction.commit? = [(s.router.step cmd).1]

/-- The other threads leave the command in hand, the commands taken and the router alone. -/
lemma Turn.frame_matching (h : Turn s a s' sent) (ha : a ≠ .matching) :
    s'.matchingThread = s.matchingThread ∧ s'.inbound.popped = s.inbound.popped ∧
      s'.router = s.router := by
  cases h with
  | matchingPolls | publishes | publishWaits | queuesTrade | queueTradeWaits | commits
  | completes => exact absurd rfl ha
  | main _ hmain =>
    obtain ⟨_, _, _, _, rfl⟩ := hmain.exists_eq
    exact ⟨rfl, rfl, rfl⟩
  | dispatches _ hpush => exact ⟨rfl, (BoundedFifo.push_eq_some hpush).2.1, rfl⟩
  | _ => exact ⟨rfl, rfl, rfl⟩

/-- A commit is what the router makes of the command taken last, and nothing else is committed. -/
lemma Executing.commit (he : s.Executing) {router : MatchingEngineRouter}
    {todo : List EngineAction} (hm : s.matchingThread = .working (.commit router :: todo)) :
    ∃ cmd, s.inbound.popped.getLast? = some cmd ∧ router = (s.router.step cmd).1 ∧
      todo.filterMap EngineAction.commit? = [] := by
  have hcommits : s.todo.filterMap EngineAction.commit? =
      router :: todo.filterMap EngineAction.commit? := by
    rw [todo_of_working hm]
    rfl
  unfold Executing at he
  rw [hcommits] at he
  rcases he with he | ⟨cmd, hcmd, he⟩
  · cases he
  · obtain ⟨hrouter, htodo⟩ := List.cons.inj he
    exact ⟨cmd, hcmd, hrouter, htodo⟩

/-- Every turn keeps that. -/
lemma Turn.executing (h : Turn s a s' sent) (he : s.Executing) : s'.Executing := by
  by_cases ha : a = .matching
  swap
  · obtain ⟨hthread, hpopped, hrouter⟩ := h.frame_matching ha
    unfold Executing State.todo at he ⊢
    rwa [hthread, hpopped, hrouter]
  -- what is not a commit is done without changing what is to be committed
  have hdone : ∀ {action todo}, s.matchingThread = .working (action :: todo) →
      s'.matchingThread = .working todo → action.commit? = none →
      s'.inbound = s.inbound → s'.router = s.router → s'.Executing := by
    intro action todo hm hm' haction hinbound hrouter
    unfold Executing at he ⊢
    rw [todo_of_working hm, List.filterMap_cons_none haction] at he
    rwa [todo_of_working hm', hinbound, hrouter]
  cases h with
  | matchingPolls hidle =>
    generalize hl : (s.matchingThread.poll (program s.router) s.gatewayFinished s.inbound).1 = l
    generalize hq : (s.matchingThread.poll (program s.router) s.gatewayFinished s.inbound).2 = q
    have hpolls :=
      PollLoop.polls_poll (program s.router) s.gatewayFinished s.matchingThread s.inbound
    rw [hl, hq] at hpolls
    cases hpolls with
    | @takes cmd _ _ hpop =>
      refine .inr ⟨cmd, ?_, commits_program s.router cmd⟩
      change q.popped.getLast? = some cmd
      rw [(BoundedFifo.pop_eq_some hpop).2.1, List.getLast?_concat]
    | rests => exact he
    | _ => exact .inl rfl
  | publishes hm => exact hdone hm rfl rfl rfl rfl
  | queuesTrade hm => exact hdone hm rfl rfl rfl rfl
  | commits hm =>
    obtain ⟨cmd, -, -, htodo⟩ := he.commit hm
    exact .inl htodo
  | completes => exact .inl rfl
  | rests | publishWaits | queueTradeWaits => exact he
  | _ => cases ha

lemma executing_after (c : Capacities) (actions : List Action) : (after c actions).Executing :=
  Mealy.run_invariant (fun s a => (turn_step s a).executing) (s := init c) (.inl rfl) actions

end State

end Executing

/-! ## Accesses to a seqlock -/

namespace Seqlock

/-- The accesses of `Store`. -/
inductive StoreAccess (ι : Type*) where
  | loadSequence
  | storeOdd
  | writeWord (i : ι)
  | storeEven

/-- The accesses of `Load`. -/
inductive LoadAccess (ι : Type*) where
  | loadBefore
  | readWord (i : ι)
  | loadAfter

variable {ι W R : Type*}

/-- The access of a `Store` of a value. -/
def StoreAccess.toAccess (value : ι → W) : StoreAccess ι → Access ι W R
  | .loadSequence => .loadSequence value
  | .storeOdd => .storeOdd
  | .writeWord i => .writeWord i
  | .storeEven => .storeEven

/-- The access of a `Load` in a thread. -/
def LoadAccess.toAccess (r : R) : LoadAccess ι → Access ι W R
  | .loadBefore => .loadBefore r
  | .readWord i => .readWord r i
  | .loadAfter => .loadAfter r

/-- The value of the store in progress. -/
def Writer.value? : Writer ι W → Option (ι → W)
  | .idle => none
  | .loaded _ value => some value
  | .copying _ value _ => some value

section Accesses

variable [Fintype ι] [DecidableEq ι] [DecidableEq R]

/-- An access of `Store` either goes on with a value or completes the store. -/
lemma step_storeAccess (s : System ι W R) (value : ι → W) (access : StoreAccess ι) :
    ((s.step (access.toAccess value)).2 = [] ∧
      ∀ v, (s.step (access.toAccess value)).1.writer.value? = some v →
        s.writer.value? = some v ∨ v = value) ∨
    ∃ stored, s.writer.value? = some stored ∧
      (s.step (access.toAccess value)).2 = [.stored stored] ∧
      (s.step (access.toAccess value)).1.writer = .idle := by
  cases access with
  | loadSequence =>
    refine .inl ?_
    simp only [StoreAccess.toAccess, System.step]
    split
    · exact ⟨rfl, fun v hv => .inr (Option.some.inj hv).symm⟩
    · exact ⟨rfl, fun v hv => .inl hv⟩
  | storeOdd =>
    refine .inl ?_
    simp only [StoreAccess.toAccess, System.step]
    split
    · case _ hwriter => exact ⟨rfl, fun v hv => .inl (hwriter ▸ hv)⟩
    · exact ⟨rfl, fun v hv => .inl hv⟩
  | writeWord i =>
    refine .inl ?_
    simp only [StoreAccess.toAccess, System.step]
    split
    · case _ hwriter =>
      split_ifs
      · exact ⟨rfl, fun v hv => .inl hv⟩
      · exact ⟨rfl, fun v hv => .inl (hwriter ▸ hv)⟩
    · exact ⟨rfl, fun v hv => .inl hv⟩
  | storeEven =>
    simp only [StoreAccess.toAccess, System.step]
    split
    · case _ hwriter =>
      split_ifs
      · exact .inr ⟨_, by rw [hwriter]; rfl, rfl, rfl⟩
      · exact .inl ⟨rfl, fun v hv => .inl hv⟩
    · exact .inl ⟨rfl, fun v hv => .inl hv⟩

/-- An access of `Load` leaves the writer alone, and it may begin the load or return from it. -/
lemma step_loadAccess (s : System ι W R) (r : R) (access : LoadAccess ι) :
    (s.step (access.toAccess r)).1.writer = s.writer ∧
      ((s.step (access.toAccess r)).2 = [] ∨ (s.step (access.toAccess r)).2 = [.began r] ∨
        ∃ value, (s.step (access.toAccess r)).2 = [.returned r value]) := by
  cases access with
  | loadBefore =>
    simp only [LoadAccess.toAccess, System.step]
    split
    · exact ⟨rfl, .inr (.inl rfl)⟩
    · exact ⟨rfl, .inl rfl⟩
    · exact ⟨rfl, .inl rfl⟩
  | readWord i =>
    simp only [LoadAccess.toAccess, System.step]
    split
    · split_ifs
      · exact ⟨rfl, .inl rfl⟩
      · exact ⟨rfl, .inl rfl⟩
    · exact ⟨rfl, .inl rfl⟩
  | loadAfter =>
    simp only [LoadAccess.toAccess, System.step]
    split
    · split_ifs
      · exact ⟨rfl, .inl rfl⟩
      · exact ⟨rfl, .inr (.inr ⟨_, rfl⟩)⟩
      · exact ⟨rfl, .inl rfl⟩
    · exact ⟨rfl, .inl rfl⟩

/-- What a load returns is the value of the last completed store. -/
lemma Consistent.returned {init : ι → W} {s : System ι W R} {o : Observed ι W R}
    (h : Consistent init s o) {access : Access ι W R} {r : R} {value : ι → W}
    (hreturned : (s.step access).2 = [.returned r value]) (hshort : o.stores.length < 2 ^ 63) :
    value = o.current init := by
  have hloads := (consistent_step h access).loads
  rw [hreturned] at hloads
  obtain ⟨-, -, hresult⟩ := hloads.returned ⟨r, o.started r, o.stores.length, value⟩
    (List.mem_append_right _ (List.mem_singleton_self _))
  exact hresult ((Nat.sub_le _ _).trans_lt hshort)

omit [Fintype ι] [DecidableEq ι] in
/-- After a store its value is the current one. -/
lemma current_stored {init : ι → W} (o : Observed ι W R) (value : ι → W) :
    (o.observe (.stored value)).current init = value := by
  unfold Observed.current valueAfter
  rw [List.take_length]
  change ((o.stores ++ [value]).getLast?).getD init = value
  rw [List.getLast?_concat, Option.getD_some]

end Accesses

end Seqlock

/-! ## The machine -/

/-- The words of `std::optional<Price>`. -/
inductive MidWord where
  | engaged
  | payload
deriving DecidableEq

instance : Fintype MidWord := ⟨{.engaged, .payload}, fun word => by cases word <;> decide⟩

/-- The words of a mid price. -/
def midWords : Option ℤ → MidWord → ℤ
  | none, _ => 0
  | some _, .engaged => 1
  | some mid, .payload => mid

/-- The mid price that has these words. -/
def ofMidWords (words : MidWord → ℤ) : Option ℤ :=
  if words .engaged = 0 then none else some (words .payload)

@[simp] lemma ofMidWords_midWords (mid : Option ℤ) : ofMidWords (midWords mid) = mid := by
  cases mid <;> rfl

/-- The accesses of a `Store` up to the last one. -/
def storeWords : List (Seqlock.StoreAccess MidWord) :=
  [.loadSequence, .storeOdd, .writeWord .engaged, .writeWord .payload]

/-- The accesses of a `Load` up to the last one. -/
def loadWords : List (Seqlock.LoadAccess MidWord) :=
  [.loadBefore, .readWord .engaged, .readWord .payload]

/-- A `Store` up to its last access. -/
lemma run_storeWords {s : Seqlock.System MidWord ℤ Unit} (h : s.writer = .idle)
    (value : MidWord → ℤ) :
    Mealy.run Seqlock.System.step s (storeWords.map (Seqlock.StoreAccess.toAccess value)) =
      (⟨⟨(s.lock.sequence + 1) % 2 ^ 64, value⟩,
        .copying s.lock.sequence value fun _ => true, s.readers⟩, []) := by
  have hwords : ∀ old : MidWord → ℤ, Function.update
      (Function.update old .engaged (value .engaged)) .payload (value .payload) = value := by
    intro old
    funext word
    cases word <;> rfl
  have hwritten : Function.update (Function.update (fun _ : MidWord => false) .engaged true)
      .payload true = fun _ => true := by
    funext word
    cases word <;> rfl
  simp [storeWords, Mealy.run, Seqlock.System.step, Seqlock.StoreAccess.toAccess, h, hwords,
    hwritten]

/-- A `Load` up to its last access. -/
lemma run_loadWords {s : Seqlock.System MidWord ℤ Unit} (h : s.readers () = .idle) :
    Mealy.run Seqlock.System.step s (loadWords.map (Seqlock.LoadAccess.toAccess ())) =
      (s.setReader () (.copying s.lock.sequence fun word => some (s.lock.value word)),
        [.began ()]) := by
  have hwords : Function.update (Function.update (fun _ : MidWord => none) .engaged
      (some (s.lock.value .engaged))) .payload (some (s.lock.value .payload)) =
      fun word => some (s.lock.value word) := by
    funext word
    cases word <;> rfl
  simp [loadWords, Mealy.run, Seqlock.System.step, Seqlock.LoadAccess.toAccess, h,
    Seqlock.System.setReader, hwords]

namespace State

variable {c : Capacities}

/-- The matching-engine thread is at the `Store` of this mid price. -/
def storing [PriceSum] (s : State c) : Option (Fin instruments.length × ℤ) :=
  match s.matchingThread with
  | .working (.commit _ :: _) => s.inbound.popped.getLast?.bind s.router.stored?
  | _ => none

/-- The inventory thread has found both users of this trade and is at the `Load` of its mid
price. -/
def loading (s : State c) : Option (Fin instruments.length × Trade) :=
  match s.inventoryThread with
  | .working trade =>
    if (s.registry.settle trade none).threw then none
    else (place trade.ticker).map fun i => (i, trade)
  | _ => none

/-- A trade is settled with the mid price that was loaded. -/
def settleWith (s : State c) (trade : Trade) (mid : Option ℤ) : State c := { s with
  registry := (s.registry.settle trade mid).registry
  settled := s.settled ++ [(trade, mid)]
  inventoryThread := .popping }

section Accesses

variable [PriceSum] {s s' : State c}

/-- Unless a store is due, a turn leaves all mid prices as they are. -/
lemma Turn.midPrice_eq {a : Action} {sent : List MarketEvent} (h : Turn s a s' sent)
    (he : s.Executing) (hidle : s.storing = none) (j : Fin instruments.length) :
    (s'.router.engines j).midPrice = (s.router.engines j).midPrice := by
  cases h with
  | main _ hmain =>
    obtain ⟨_, _, _, _, rfl⟩ := hmain.exists_eq
    rfl
  | commits hm =>
    obtain ⟨cmd, hlast, rfl, -⟩ := he.commit hm
    unfold storing at hidle
    simp only [hm, hlast, Option.bind_some] at hidle
    exact MatchingEngineRouter.midPrice_step_of_not_stored hidle j
  | _ => rfl

/-- If a store is due, the next step commits it, and with it one mid price. -/
lemma step_of_storing (he : s.Executing) (hterm : s.terminated = false)
    {i : Fin instruments.length} {mid : ℤ} (h : s.storing = some (i, mid)) :
    (s.step .matching).2 = [] ∧ (s.step .matching).1.storing = none ∧
      ∀ j, ((s.step .matching).1.router.engines j).midPrice =
        if j = i then some mid else (s.router.engines j).midPrice := by
  unfold storing at h
  split at h
  swap
  · cases h
  · case _ router todo hm =>
    obtain ⟨cmd, hlast, rfl, htodo⟩ := he.commit hm
    rw [hlast, Option.bind_some] at h
    have hstep : s.step .matching =
        ({ s with router := (s.router.step cmd).1, matchingThread := .working todo }, []) := by
      simp [step, hterm, stepMatching, hm, execute]
    rw [hstep]
    refine ⟨rfl, ?_, MatchingEngineRouter.midPrice_step_of_stored h⟩
    unfold storing
    split
    · case _ router' todo' hm' =>
      obtain rfl := PollLoop.working.inj hm'
      cases htodo
    · rfl

/-- If a load is due, settling with the mid price of the router is the next step. -/
lemma step_of_loading (hterm : s.terminated = false) {i : Fin instruments.length} {trade : Trade}
    (h : s.loading = some (i, trade)) :
    s.step .inventory = (s.settleWith trade (s.router.engines i).midPrice, []) := by
  unfold loading at h
  split at h
  swap
  · cases h
  · case _ trade' hi =>
    split_ifs at h with hthrew
    obtain ⟨j, hplace, heq⟩ := Option.map_eq_some_iff.mp h
    obtain ⟨rfl, rfl⟩ := Prod.mk.inj heq
    have hmid : s.router.midPrice trade'.ticker = (s.router.engines j).midPrice := by
      simp [MatchingEngineRouter.midPrice, hplace]
    have hok : (s.registry.settle trade' (s.router.engines j).midPrice).threw = false := by
      rw [UserRegistry.threw_iff] at hthrew
      rw [← Bool.not_eq_true, UserRegistry.threw_iff]
      exact hthrew
    simp [step, hterm, stepInventory, hi, settleTrade, hmid, hok, settleWith]

end Accesses

end State

/-- The threads, and the seqlocks of the mid prices. -/
structure Locked (c : Capacities) where
  threads : State c
  locks : Fin instruments.length → Seqlock.System MidWord ℤ Unit

/-- The next step of a thread, of an access to a seqlock if it is at one. -/
inductive LockedInput where
  | thread (a : Action)
  | store (access : Seqlock.StoreAccess MidWord)
  | load (access : Seqlock.LoadAccess MidWord)

namespace Locked

variable {c : Capacities}

/-- All threads are started and nothing has happened. -/
def init (c : Capacities) : Locked c := ⟨.init c, fun _ => .initial (midWords none)⟩

variable [PriceSum]

/-- The thread is at an access to a seqlock. -/
def busy (x : Locked c) : Action → Bool
  | .matching => x.threads.storing.isSome
  | .inventory => x.threads.loading.isSome
  | _ => false

/-- The matching-engine thread makes an access; when `Store` returns, so does the engine. -/
def stepStore (x : Locked c) (access : Seqlock.StoreAccess MidWord) : Locked c :=
  match x.threads.storing with
  | none => x
  | some (i, mid) =>
    let p := (x.locks i).step (access.toAccess (midWords (some mid)))
    match p.2 with
    | [] => ⟨x.threads, Function.update x.locks i p.1⟩
    | _ :: _ => ⟨(x.threads.step .matching).1, Function.update x.locks i p.1⟩

/-- The inventory thread makes an access; when `Load` returns, the trade is settled. -/
def stepLoad (x : Locked c) (access : Seqlock.LoadAccess MidWord) : Locked c :=
  match x.threads.loading with
  | none => x
  | some (i, trade) =>
    let p := (x.locks i).step (access.toAccess ())
    match p.2 with
    | [.returned _ words] =>
      ⟨x.threads.settleWith trade (ofMidWords words), Function.update x.locks i p.1⟩
    | _ => ⟨x.threads, Function.update x.locks i p.1⟩

/-- One step, and the datagrams it sends. -/
def step (x : Locked c) (input : LockedInput) : Locked c × List MarketEvent :=
  if x.threads.terminated then (x, [])
  else match input with
    | .thread a =>
      if x.busy a then (x, [])
      else ({ x with threads := (x.threads.step a).1 }, (x.threads.step a).2)
    | .store access => (x.stepStore access, [])
    | .load access => (x.stepLoad access, [])

/-- The threads and the seqlocks after an interleaving. -/
def after (c : Capacities) (inputs : List LockedInput) : Locked c :=
  (Mealy.run step (init c) inputs).1

end Locked

end ToyExchange
