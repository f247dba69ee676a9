import ToyExchange.Net.UnterminatedTickers
import ToyExchange.Workers.Turns

/-!
# The whole exchange

`Gateway` follows the thread of the gateway through its system calls and leaves the queue to the
environment; `State` follows the queues and all the threads and leaves the bytes to the
environment.  Here the two run together: what the gateway decodes is what it pushes onto the inbound
queue, a push fails if that queue is full, and the loop of `Run` ends when the main thread has
called `Stop`.  What is left to the environment are the results of the calls to the sockets and the
order in which the threads move.

Each of the two machines is refined: whatever the whole exchange does, its gateway has made a run
of `Gateway` (`gateway_refines`) and its threads one of `State` (`threads_refine`).  `Coupled` says
how they hold together.
-/

namespace ToyExchange

open Framing

/-- The whole exchange: the gateway with its connections, and the threads with their queues.  In
`threads`, the place of the gateway thread is its place in the loop of `Run` and in `Dispatch`. -/
structure Exchange (c : Capacities) where
  gateway : Gateway
  threads : State c

/-- What the calls of the gateway to its sockets return. -/
inductive SocketResult where
  /-- `accept4` returns a descriptor. -/
  | accept (fd : ℤ)
  /-- `epoll_wait` has returned a descriptor to read from. -/
  | readFrom (fd : ℤ)
  | read (result : ReadResult)
  /-- There is no further descriptor in this round of the loop of `Run`. -/
  | roundOver

/-- A step of one thread, or a signal. -/
inductive ExchangeInput where
  | signal
  | main
  | gateway (result : SocketResult)
  | matching
  | inventory
  | marketData (delivered : Bool)

/-- What is seen of the exchange: the calls of its gateway and the datagrams it sends. -/
inductive ExchangeOutput where
  | called (call : GatewayCall)
  | sent (event : MarketEvent)

namespace ExchangeOutput

/-- The calls of the gateway. -/
def call? : ExchangeOutput → Option GatewayCall
  | .called call => some call
  | .sent _ => none

/-- The datagrams. -/
def datagram? : ExchangeOutput → Option MarketEvent
  | .called _ => none
  | .sent event => some event

@[simp] lemma calls_map_called (calls : List GatewayCall) :
    (calls.map called).filterMap call? = calls := by
  have hcomp : call? ∘ called = some := rfl
  rw [List.filterMap_map, hcomp, List.filterMap_some]

@[simp] lemma calls_map_sent (events : List MarketEvent) :
    (events.map sent).filterMap call? = [] := by
  rw [List.filterMap_map, List.filterMap_eq_nil_iff]
  intro event _
  rfl

@[simp] lemma datagrams_map_called (calls : List GatewayCall) :
    (calls.map called).filterMap datagram? = [] := by
  rw [List.filterMap_map, List.filterMap_eq_nil_iff]
  intro call _
  rfl

@[simp] lemma datagrams_map_sent (events : List MarketEvent) :
    (events.map sent).filterMap datagram? = events := by
  have hcomp : datagram? ∘ sent = some := rfl
  rw [List.filterMap_map, hcomp, List.filterMap_some]

end ExchangeOutput

/-- Decoding has thrown. -/
def Control.isThrown : Control → Bool
  | .thrown _ => true
  | _ => false

/-- The thread is in the body of the loop of `Run`, outside of `Dispatch`. -/
def Control.InRound : Control → Prop
  | .waiting | .reading _ | .thrown _ => True
  | .dispatching _ _ _ | .stopped => False

lemma Control.inRound_next (fd : ℤ) (drained : Bool) : (Control.next fd drained).InRound := by
  cases drained <;> trivial

lemma pushedCommands_append (calls more : List GatewayCall) :
    pushedCommands (calls ++ more) = pushedCommands calls ++ pushedCommands more :=
  List.filterMap_append

namespace Gateway

/-- What a call to the sockets does: nothing is pushed, and the thread stays in the round unless it
enters `Dispatch`. -/
lemma step_of_inRound {g : Gateway} (hround : g.control.InRound) {input : GatewayInput}
    (hinput : input ≠ .stop ∧ ∀ taken, input ≠ .push taken) :
    pushedCommands (g.step input).2 = [] ∧
      ((g.step input).1.control.InRound ∨
        ∃ fd cmd drained, (g.step input).1.control = .dispatching fd cmd drained) := by
  unfold step
  split
  · exact ⟨rfl, Or.inl hround⟩
  · split
    · exact ⟨rfl, Or.inl hround⟩
    · exact ⟨rfl, Or.inl trivial⟩
  · exact absurd rfl hinput.1
  · split
    · exact ⟨rfl, Or.inl hround⟩
    · case _ fd result _ _ conn _ =>
      cases result with
      | wouldBlock => exact ⟨rfl, Or.inl trivial⟩
      | endOfStream => exact ⟨rfl, Or.inl trivial⟩
      | failed => exact ⟨rfl, Or.inl trivial⟩
      | data bs =>
        simp only [onRead]
        split
        · exact ⟨rfl, Or.inl hround⟩
        · refine ⟨rfl, ?_⟩
          dsimp only
          unfold Control.afterReceive
          split_ifs
          · split
            · exact Or.inr ⟨_, _, _, rfl⟩
            · exact Or.inl trivial
          · exact Or.inl (Control.inRound_next _ _)
  · exact absurd rfl (hinput.2 true)
  · exact ⟨rfl, Or.inl hround⟩

/-- A command is pushed. -/
lemma step_push {g : Gateway} {fd : ℤ} {cmd : InboundCommand} {drained : Bool}
    (hcontrol : g.control = .dispatching fd cmd drained) {conn : Connection}
    (hconn : g.connections fd = some conn) :
    (g.step (.push true)).1.control = .next fd drained ∧
      (g.step (.push true)).2 = [.pushed fd cmd] := by
  unfold step
  rw [hcontrol]
  dsimp only
  rw [hconn]
  exact ⟨rfl, rfl⟩

/-- The thread leaves the loop of `Run`. -/
lemma step_stop {g : Gateway} (hcontrol : g.control = .waiting) :
    (g.step .stop).1.control = .stopped ∧ (g.step .stop).2 = [] := by
  unfold step
  rw [hcontrol]
  exact ⟨rfl, rfl⟩

end Gateway

namespace Exchange

variable {c : Capacities}

/-- All threads are started and nothing has happened. -/
def init (c : Capacities) : Exchange c := ⟨.initial, .init c⟩

/-- The gateway moves, and the threads with it. -/
def moveGateway (x : Exchange c) (input : GatewayInput) (threads : State c) :
    Exchange c × List ExchangeOutput :=
  (⟨(x.gateway.step input).1, threads⟩, (x.gateway.step input).2.map .called)

/-- A call of the gateway to its sockets returns.  If that completes a message, the thread is in
`Dispatch`. -/
def serve (x : Exchange c) (input : GatewayInput) : Exchange c × List ExchangeOutput :=
  x.moveGateway input <| match (x.gateway.step input).1.control with
    | .dispatching _ cmd _ => x.threads.stepGateway (some cmd)
    | _ => x.threads

/-- The gateway thread in the body of the loop of `Run`. -/
def stepServing (x : Exchange c) : SocketResult → Exchange c × List ExchangeOutput
  | .accept fd => x.serve (.accept fd)
  | .readFrom fd => x.serve (.readFrom fd)
  | .read result => x.serve (.read result)
  | .roundOver =>
    match x.gateway.control with
    | .waiting => ({ x with threads := x.threads.stepGateway none }, [])
    | _ => (x, [])

/-- The gateway thread. -/
def stepGateway (x : Exchange c) (result : SocketResult) : Exchange c × List ExchangeOutput :=
  match x.threads.gatewayThread with
  | .loopHead =>
    if x.threads.running then ({ x with threads := x.threads.stepGateway none }, [])
    else x.moveGateway .stop (x.threads.stepGateway none)
  | .serving => x.stepServing result
  | .dispatching cmd =>
    match x.threads.inbound.push cmd with
    | none => (x, [])
    | some _ => x.moveGateway (.push true) (x.threads.stepGateway none)
  | .finished => (x, [])

/-- Another thread, or a signal. -/
def stepThreads [PriceSum] (x : Exchange c) (a : Action) : Exchange c × List ExchangeOutput :=
  ({ x with threads := (x.threads.step a).1 }, (x.threads.step a).2.map .sent)

/-- One step of the exchange.  An exception that leaves a thread ends the process. -/
def step [PriceSum] (x : Exchange c) (input : ExchangeInput) : Exchange c × List ExchangeOutput :=
  if x.gateway.control.isThrown || x.threads.terminated then (x, [])
  else match input with
    | .signal => x.stepThreads .signal
    | .main => x.stepThreads .main
    | .gateway result => x.stepGateway result
    | .matching => x.stepThreads .matching
    | .inventory => x.stepThreads .inventory
    | .marketData delivered => x.stepThreads (.marketData delivered)

section Runs

variable [PriceSum]

/-- The exchange after an interleaving. -/
def after (c : Capacities) (inputs : List ExchangeInput) : Exchange c :=
  (Mealy.run step (init c) inputs).1

/-- The calls of the gateway in an interleaving. -/
def calls (c : Capacities) (inputs : List ExchangeInput) : List GatewayCall :=
  (Mealy.run step (init c) inputs).2.filterMap ExchangeOutput.call?

/-- The datagrams sent in an interleaving. -/
def datagrams (c : Capacities) (inputs : List ExchangeInput) : List MarketEvent :=
  (Mealy.run step (init c) inputs).2.filterMap ExchangeOutput.datagram?

/-- What an observer of the calls of the gateway knows. -/
def sessions (c : Capacities) (inputs : List ExchangeInput) : Sessions :=
  .ofCalls (calls c inputs)

end Runs

/-! ## What a step can do -/

/-- Everything a step of the exchange can do to the gateway and the threads. -/
inductive Moves [PriceSum] (x : Exchange c) : Exchange c × List ExchangeOutput → Prop
  | waits : Moves x (x, [])
  | threads (hterm : x.threads.terminated = false) (a : Action)
      (ha : ∀ message, a ≠ .gateway message) : Moves x (x.stepThreads a)
  | head (hterm : x.threads.terminated = false) (hhead : x.threads.gatewayThread = .loopHead)
      (hrunning : x.threads.running = true) :
      Moves x ({ x with threads := x.threads.stepGateway none }, [])
  | leaves (hterm : x.threads.terminated = false) (hhead : x.threads.gatewayThread = .loopHead)
      (hrunning : x.threads.running = false) :
      Moves x (x.moveGateway .stop (x.threads.stepGateway none))
  | serves (hterm : x.threads.terminated = false) (hserving : x.threads.gatewayThread = .serving)
      (input : GatewayInput) (hinput : input ≠ .stop ∧ ∀ taken, input ≠ .push taken) :
      Moves x (x.serve input)
  | roundOver (hterm : x.threads.terminated = false)
      (hserving : x.threads.gatewayThread = .serving) (hwaiting : x.gateway.control = .waiting) :
      Moves x ({ x with threads := x.threads.stepGateway none }, [])
  | pushes (hterm : x.threads.terminated = false) {cmd : InboundCommand}
      (hdispatching : x.threads.gatewayThread = .dispatching cmd)
      {q : BoundedFifo InboundCommand c.inbound} (hpush : x.threads.inbound.push cmd = some q) :
      Moves x (x.moveGateway (.push true) (x.threads.stepGateway none))

/-- A move of the gateway is one of its own. -/
lemma run_gateway_move (x : Exchange c) (input : GatewayInput) (threads : State c) :
    Mealy.run Gateway.step x.gateway [input] =
      ((x.moveGateway input threads).1.gateway,
        (x.moveGateway input threads).2.filterMap ExchangeOutput.call?) := by
  rw [moveGateway, ExchangeOutput.calls_map_called]
  exact Prod.ext rfl (List.append_nil _)

variable [PriceSum]

lemma moves_stepServing {x : Exchange c} (hterm : x.threads.terminated = false)
    (hserving : x.threads.gatewayThread = .serving) (result : SocketResult) :
    Moves x (x.stepServing result) := by
  cases result with
  | accept fd => exact .serves hterm hserving _ ⟨nofun, nofun⟩
  | readFrom fd => exact .serves hterm hserving _ ⟨nofun, nofun⟩
  | read result => exact .serves hterm hserving _ ⟨nofun, nofun⟩
  | roundOver =>
    simp only [stepServing]
    split
    · case _ hwaiting => exact .roundOver hterm hserving hwaiting
    · exact .waits

lemma moves_stepGateway {x : Exchange c} (hterm : x.threads.terminated = false)
    (result : SocketResult) : Moves x (x.stepGateway result) := by
  unfold stepGateway
  split
  · case _ hhead =>
    split_ifs with hrunning
    · exact .head hterm hhead hrunning
    · exact .leaves hterm hhead (Bool.not_eq_true _ ▸ hrunning)
  · case _ hserving => exact moves_stepServing hterm hserving result
  · case _ cmd hdispatching =>
    split
    · exact .waits
    · case _ q hpush => exact .pushes hterm hdispatching hpush
  · exact .waits

/-- Every step is one of the moves. -/
lemma moves_step (x : Exchange c) (input : ExchangeInput) : Moves x (x.step input) := by
  unfold step
  split_ifs with hended
  · exact .waits
  · have hterm : x.threads.terminated = false := by
      cases h : x.threads.terminated with
      | false => rfl
      | true => exact absurd (by rw [h, Bool.or_true]) hended
    cases input with
    | signal => exact .threads hterm _ nofun
    | main => exact .threads hterm _ nofun
    | gateway result => exact moves_stepGateway hterm result
    | matching => exact .threads hterm _ nofun
    | inventory => exact .threads hterm _ nofun
    | marketData delivered => exact .threads hterm _ nofun

/-! ## The two machines -/

/-- A step of the exchange is at most one step of the gateway. -/
lemma Moves.exists_run_gateway {x : Exchange c} {p : Exchange c × List ExchangeOutput}
    (h : Moves x p) :
    ∃ inputs, Mealy.run Gateway.step x.gateway inputs =
      (p.1.gateway, p.2.filterMap ExchangeOutput.call?) := by
  cases h with
  | waits => exact ⟨[], rfl⟩
  | threads _ a _ => exact ⟨[], Prod.ext rfl (ExchangeOutput.calls_map_sent _).symm⟩
  | head => exact ⟨[], rfl⟩
  | leaves => exact ⟨_, run_gateway_move x _ _⟩
  | serves => exact ⟨_, run_gateway_move x _ _⟩
  | roundOver => exact ⟨[], rfl⟩
  | pushes => exact ⟨_, run_gateway_move x _ _⟩

/-- Whatever the exchange does, its gateway has made a run of its own, with the same calls. -/
theorem gateway_refines (c : Capacities) (inputs : List ExchangeInput) :
    ∃ gatewayInputs, (after c inputs).gateway = Gateway.after gatewayInputs ∧
      calls c inputs = Gateway.calls gatewayInputs := by
  obtain ⟨js, hjs⟩ := Mealy.run_refines (I := fun _ : Exchange c => True)
    (fun _ _ _ => trivial) (fun x input _ => (moves_step x input).exists_run_gateway)
    (s := init c) trivial inputs
  exact ⟨js, (congrArg Prod.fst hjs).symm, (congrArg Prod.snd hjs).symm⟩

/-- A step of the gateway thread is one of the threads. -/
lemma run_stepGateway {s : State c} (hterm : s.terminated = false)
    (message : Option InboundCommand) :
    Mealy.run State.step s [.gateway message] = (s.stepGateway message, []) := by
  have hstep : s.step (.gateway message) = (s.stepGateway message, []) := by
    rw [State.step, if_neg (by simp [hterm])]
  rw [Mealy.run, hstep]
  rfl

/-- A step of the exchange is at most one step of the threads. -/
lemma Moves.exists_run_threads {x : Exchange c} {p : Exchange c × List ExchangeOutput}
    (h : Moves x p) :
    ∃ actions, Mealy.run State.step x.threads actions =
      (p.1.threads, p.2.filterMap ExchangeOutput.datagram?) := by
  cases h with
  | waits => exact ⟨[], rfl⟩
  | threads _ a _ =>
    refine ⟨[a], Prod.ext rfl ?_⟩
    rw [stepThreads, ExchangeOutput.datagrams_map_sent]
    exact List.append_nil _
  | head hterm => exact ⟨_, run_stepGateway hterm none⟩
  | leaves hterm =>
    rw [moveGateway, ExchangeOutput.datagrams_map_called]
    exact ⟨_, run_stepGateway hterm none⟩
  | serves hterm _ gatewayInput _ =>
    rw [serve, moveGateway, ExchangeOutput.datagrams_map_called]
    dsimp only
    split
    · case _ fd cmd drained _ => exact ⟨_, run_stepGateway hterm (some cmd)⟩
    · exact ⟨[], rfl⟩
  | roundOver hterm => exact ⟨_, run_stepGateway hterm none⟩
  | pushes hterm =>
    rw [moveGateway, ExchangeOutput.datagrams_map_called]
    exact ⟨_, run_stepGateway hterm none⟩

/-- Whatever the exchange does, its threads have made a run of theirs, with the same datagrams. -/
theorem threads_refine (c : Capacities) (inputs : List ExchangeInput) :
    ∃ actions, Mealy.run State.step (State.init c) actions =
      ((after c inputs).threads, datagrams c inputs) :=
  Mealy.run_refines (I := fun _ : Exchange c => True) (fun _ _ _ => trivial)
    (fun x input _ => (moves_step x input).exists_run_threads) (s := init c) trivial inputs

/-! ## How they hold together -/

/-- The places of the gateway thread in the two machines belong together. -/
def InPlace : GatewayLoop → Control → Prop
  | .loopHead, control => control = .waiting
  | .serving, control => control.InRound
  | .dispatching cmd, control => ∃ fd drained, control = .dispatching fd cmd drained
  | .finished, control => control = .stopped

/-- The inbound queue has what the gateway has pushed, and the two machines agree on where the
gateway thread is. -/
structure Coupled (x : Exchange c) (calls : List GatewayCall) : Prop where
  pushed : x.threads.inbound.pushed = pushedCommands calls
  place : InPlace x.threads.gatewayThread x.gateway.control

variable {x : Exchange c} {calls : List GatewayCall}

/-- Another thread moves. -/
lemma Coupled.threads (h : Coupled x calls) {a : Action} (ha : ∀ message, a ≠ .gateway message) :
    Coupled (x.stepThreads a).1
      (calls ++ (x.stepThreads a).2.filterMap ExchangeOutput.call?) := by
  obtain ⟨hthread, hpushed⟩ := (x.threads.turn_step a).frame_gateway ha
  rw [stepThreads, ExchangeOutput.calls_map_sent, List.append_nil]
  refine ⟨hpushed.trans h.pushed, ?_⟩
  rw [hthread]
  exact h.place

omit [PriceSum] in
/-- The thread is at the head of the loop and the gateway runs. -/
lemma Coupled.head (h : Coupled x calls) (hhead : x.threads.gatewayThread = .loopHead)
    (hrunning : x.threads.running = true) :
    Coupled { x with threads := x.threads.stepGateway none } calls := by
  have hplace := h.place
  rw [hhead] at hplace
  rw [State.stepGateway, hhead]
  dsimp only
  rw [if_pos hrunning]
  refine ⟨h.pushed, ?_⟩
  change x.gateway.control.InRound
  rw [hplace]
  trivial

omit [PriceSum] in
/-- The thread leaves the loop. -/
lemma Coupled.leaves (h : Coupled x calls) (hhead : x.threads.gatewayThread = .loopHead)
    (hrunning : x.threads.running = false) :
    Coupled (x.moveGateway .stop (x.threads.stepGateway none)).1
      (calls ++ (x.moveGateway .stop (x.threads.stepGateway none)).2.filterMap
        ExchangeOutput.call?) := by
  have hplace := h.place
  rw [hhead] at hplace
  obtain ⟨hcontrol, hnone⟩ := Gateway.step_stop hplace
  rw [moveGateway, ExchangeOutput.calls_map_called, hnone, List.append_nil, State.stepGateway,
    hhead]
  dsimp only
  rw [if_neg (by rw [hrunning]; exact Bool.false_ne_true)]
  exact ⟨h.pushed, hcontrol⟩

omit [PriceSum] in
/-- A call returns in the body of the loop. -/
lemma Coupled.serves (h : Coupled x calls) (hserving : x.threads.gatewayThread = .serving)
    {input : GatewayInput} (hinput : input ≠ .stop ∧ ∀ taken, input ≠ .push taken) :
    Coupled (x.serve input).1
      (calls ++ (x.serve input).2.filterMap ExchangeOutput.call?) := by
  have hplace := h.place
  rw [hserving] at hplace
  obtain ⟨hnone, hround⟩ := Gateway.step_of_inRound hplace hinput
  have hpushed : x.threads.inbound.pushed =
      pushedCommands (calls ++ (x.gateway.step input).2) := by
    rw [pushedCommands_append, hnone, List.append_nil, h.pushed]
  rw [serve, moveGateway, ExchangeOutput.calls_map_called]
  dsimp only
  rcases hround with hround | ⟨fd, cmd, drained, hdispatching⟩
  · split
    · case _ hcontrol =>
      rw [hcontrol] at hround
      exact hround.elim
    · refine ⟨hpushed, ?_⟩
      rw [hserving]
      exact hround
  · rw [hdispatching]
    dsimp only
    rw [State.stepGateway, hserving]
    exact ⟨hpushed, fd, drained, hdispatching⟩

omit [PriceSum] in
/-- The round of the thread is over. -/
lemma Coupled.roundOver (h : Coupled x calls) (hserving : x.threads.gatewayThread = .serving)
    (hwaiting : x.gateway.control = .waiting) :
    Coupled { x with threads := x.threads.stepGateway none } calls := by
  rw [State.stepGateway, hserving]
  exact ⟨h.pushed, hwaiting⟩

omit [PriceSum] in
/-- A command is pushed. -/
lemma Coupled.pushes (h : Coupled x calls) (hopen : ∀ fd, x.gateway.Busy fd →
      ∃ conn, x.gateway.connections fd = some conn) {cmd : InboundCommand}
    (hdispatching : x.threads.gatewayThread = .dispatching cmd)
    {q : BoundedFifo InboundCommand c.inbound} (hpush : x.threads.inbound.push cmd = some q) :
    Coupled (x.moveGateway (.push true) (x.threads.stepGateway none)).1
      (calls ++ (x.moveGateway (.push true) (x.threads.stepGateway none)).2.filterMap
        ExchangeOutput.call?) := by
  have hplace := h.place
  rw [hdispatching] at hplace
  obtain ⟨fd, drained, hcontrol⟩ := hplace
  have hbusy : x.gateway.Busy fd := by
    unfold Gateway.Busy
    rw [hcontrol]
  obtain ⟨conn, hconn⟩ := hopen fd hbusy
  obtain ⟨hnext, hpushed⟩ := Gateway.step_push hcontrol hconn
  rw [moveGateway, ExchangeOutput.calls_map_called, hpushed, State.stepGateway, hdispatching]
  dsimp only
  rw [hpush]
  constructor
  · rw [pushedCommands_append, ← h.pushed]
    exact (BoundedFifo.push_eq_some hpush).1
  · change Control.InRound _
    rw [hnext]
    exact Control.inRound_next fd drained

/-- Every step of the exchange keeps its two machines together. -/
lemma Coupled.moves (h : Coupled x calls) (hopen : ∀ fd, x.gateway.Busy fd →
      ∃ conn, x.gateway.connections fd = some conn)
    {p : Exchange c × List ExchangeOutput} (hmoves : Moves x p) :
    Coupled p.1 (calls ++ p.2.filterMap ExchangeOutput.call?) := by
  cases hmoves with
  | waits => exact (List.append_nil calls).symm ▸ h
  | threads _ a ha => exact h.threads ha
  | head _ hhead hrunning => exact (List.append_nil calls).symm ▸ h.head hhead hrunning
  | leaves _ hhead hrunning => exact h.leaves hhead hrunning
  | serves _ hserving _ hinput => exact h.serves hserving hinput
  | roundOver _ hserving hwaiting =>
    exact (List.append_nil calls).symm ▸ h.roundOver hserving hwaiting
  | pushes _ hdispatching hpush => exact h.pushes hopen hdispatching hpush

/-- The sessions are framed after any interleaving. -/
theorem framed_after (c : Capacities) (inputs : List ExchangeInput) :
    Framed (after c inputs).gateway (sessions c inputs) := by
  obtain ⟨gatewayInputs, hgateway, hcalls⟩ := gateway_refines c inputs
  rw [sessions, hgateway, hcalls]
  exact Gateway.framed_after gatewayInputs

/-- The two machines are together after any interleaving. -/
theorem coupled_after (c : Capacities) (inputs : List ExchangeInput) :
    Coupled (after c inputs) (Exchange.calls c inputs) := by
  induction inputs using List.reverseRecOn with
  | nil => exact ⟨rfl, rfl⟩
  | append_singleton inputs input ih =>
    have hopen := fun fd => (framed_after c inputs fd).open_of_busy
    unfold after at ih hopen ⊢
    unfold Exchange.calls at ih ⊢
    rw [Mealy.run_concat_fst, Mealy.run_concat_snd, List.filterMap_append]
    exact ih.moves hopen (moves_step _ input)

end Exchange

end ToyExchange
