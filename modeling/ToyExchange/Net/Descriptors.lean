import ToyExchange.Net.Gateway
import ToyExchange.Foundations.Inventory

/-!
# The descriptors of the gateway

A gateway opens a descriptor to listen, one for `epoll`, and one for each connection.  It should
close each of them once: a descriptor that is never closed is lost to the process, and one that is
closed twice may by then be another one's.  `Run` closes everything when it returns, and the
destructor closes what is left if `Run` was never called or has thrown, at whatever point.

`GatewayObject` is the life of a gateway from its constructor to its destructor, with at most one
call of `Run`, and with the table of open descriptors of the kernel.  The kernel hands out only
descriptors that are not open; whatever else the system calls return is an input.  The map of the
connections is represented by what it finds (`Gateway.connections`) and by its keys, which
`CloseAllConnections` visits in any order.  The invariant `Lives` accounts for the open descriptors
by the members and the keys, and `descriptors_closed_once` follows.
-/

namespace ToyExchange

open Inventory

namespace Gateway

/-- The connection that a step of the loop opens. -/
def opens (g : Gateway) : GatewayInput → Option ℤ
  | .accept fd =>
    match g.control with
    | .waiting => some fd
    | _ => none
  | _ => none

/-- The connection that a step of the loop closes. -/
def closes (g : Gateway) : GatewayInput → Option ℤ
  | .read result =>
    match g.control, result with
    | .reading fd, .endOfStream => (g.connections fd).map fun _ => fd
    | .reading fd, .failed => (g.connections fd).map fun _ => fd
    | _, _ => none
  | _ => none

/-- A new connection is known from then on. -/
lemma connections_of_opens {g : Gateway} {input : GatewayInput} {fd : ℤ}
    (h : g.opens input = some fd) :
    (g.step input).1.connections = Function.update g.connections fd (some .empty) := by
  unfold opens at h
  split at h
  · case _ fd' =>
    split at h
    · case _ hcontrol =>
      obtain rfl := Option.some.inj h
      simp [step, hcontrol, acceptConnection]
    · cases h
  · cases h

/-- A closed connection was known, and is not from then on. -/
lemma connections_of_closes {g : Gateway} {input : GatewayInput} {fd : ℤ}
    (h : g.closes input = some fd) : (g.connections fd).isSome ∧
      (g.step input).1.connections = Function.update g.connections fd none := by
  unfold closes at h
  split at h
  · case _ result =>
    split at h
    · case _ fd' hcontrol =>
      obtain ⟨c, hc, rfl⟩ := Option.map_eq_some_iff.mp h
      refine ⟨Option.isSome_iff_exists.mpr ⟨c, hc⟩, ?_⟩
      simp [step, hcontrol, hc, onRead, closeConnection]
    · case _ fd' hcontrol =>
      obtain ⟨c, hc, rfl⟩ := Option.map_eq_some_iff.mp h
      refine ⟨Option.isSome_iff_exists.mpr ⟨c, hc⟩, ?_⟩
      simp [step, hcontrol, hc, onRead, closeConnection]
    · cases h
  · cases h

/-- Storing into a known connection makes no other one known. -/
lemma isSome_setConnection {g : Gateway} {fd : ℤ} {c : Connection} (hc : g.connections fd = some c)
    (c' : Connection) (fd' : ℤ) :
    ((g.setConnection fd c').connections fd').isSome = (g.connections fd').isSome := by
  change (Function.update g.connections fd (some c') fd').isSome = (g.connections fd').isSome
  by_cases hfd : fd' = fd
  · rw [hfd, hc, Function.update_self]
    rfl
  · rw [Function.update_of_ne hfd]

/-- Other steps of the loop open and close nothing. -/
lemma isSome_connections_step {g : Gateway} {input : GatewayInput} (hopens : g.opens input = none)
    (hcloses : g.closes input = none) (hstop : input ≠ .stop) (fd : ℤ) :
    ((g.step input).1.connections fd).isSome = (g.connections fd).isSome := by
  unfold step
  split
  · case _ fd' hcontrol => simp [opens, hcontrol] at hopens
  · split <;> rfl
  · exact absurd rfl hstop
  · case _ fd' result hcontrol =>
    split
    · rfl
    · case _ c hc =>
      cases result with
      | wouldBlock => rfl
      | endOfStream => simp [closes, hcontrol, hc] at hcloses
      | failed => simp [closes, hcontrol, hc] at hcloses
      | data bs =>
        rw [onRead]
        split
        · rfl
        · exact isSome_setConnection hc _ fd
  · case _ fd' cmd drained hcontrol =>
    split
    · rfl
    · case _ c hc => exact isSome_setConnection hc _ fd
  · rfl

end Gateway

/-- Where the life of a gateway stands. -/
inductive GatewayPlace where
  /-- `Run` was not called. -/
  | constructed
  /-- In `Run`, about to call `bind`. -/
  | binding
  /-- In `Run`, about to call `listen`. -/
  | listening
  /-- In `Run`, about to call `epoll_create1`. -/
  | creatingEpoll
  /-- In the loop of `Run`. -/
  | looping
  | returned
  /-- An exception has left `Run`. -/
  | thrown
  | destroyed

/-- A gateway, and the open descriptors. -/
structure GatewayObject where
  place : GatewayPlace
  listenFd : ℤ
  epollFd : ℤ
  gateway : Gateway
  /-- The keys of the map of connections. -/
  keys : List ℤ
  /-- What the kernel has open. -/
  table : Finset ℤ

/-- What the system calls return, and what is done with the gateway. -/
inductive ObjectInput where
  | socket (result : Option ℤ)
  | bind (ok : Bool)
  | listen (ok : Bool)
  | epollCreate (result : Option ℤ)
  | loop (input : GatewayInput)
  /-- The loop of `Run` sees that it should stop; the connections are visited in this order. -/
  | leave (order : List ℤ)
  /-- The destructor is called; the connections are visited in this order. -/
  | destroy (order : List ℤ)

namespace GatewayObject

/-- After the constructor. -/
def constructed : GatewayObject := ⟨.constructed, -1, -1, .initial, [], ∅⟩

/-- The kernel can hand out this descriptor. -/
def Free (x : GatewayObject) (fd : ℤ) : Prop := 0 ≤ fd ∧ fd ∉ x.table

instance (x : GatewayObject) (fd : ℤ) : Decidable (x.Free fd) :=
  inferInstanceAs (Decidable (0 ≤ fd ∧ fd ∉ x.table))

/-- The descriptors that a member holds. -/
def held (fd : ℤ) : List ℤ := if 0 ≤ fd then [fd] else []

/-- A step of the loop of `Run`: the descriptors that it closes come last. -/
def stepLoop (x : GatewayObject) (input : GatewayInput) : GatewayObject × List ℤ :=
  let g := (x.gateway.step input).1
  match x.gateway.opens input with
  | some fd =>
    if x.Free fd then
      ({ x with gateway := g, keys := x.keys ++ [fd], table := insert fd x.table }, [])
    else (x, [])
  | none =>
    match x.gateway.closes input with
    | some fd => ({ x with gateway := g, keys := x.keys.erase fd, table := x.table \ {fd} }, [fd])
    | none =>
      match g.control with
      -- decoding has thrown, which leaves `Run`
      | .thrown _ => ({ x with gateway := g, place := .thrown }, [])
      | _ => ({ x with gateway := g }, [])

/-- All descriptors are closed, those of the connections first. -/
def closeAll (x : GatewayObject) (place : GatewayPlace) (closed : List ℤ) : GatewayObject where
  place := place
  listenFd := -1
  epollFd := -1
  gateway := ⟨fun _ => none, .stopped⟩
  keys := []
  table := x.table \ closed.toFinset

/-- One step, and the descriptors that it closes, in order. -/
def step (x : GatewayObject) (input : ObjectInput) : GatewayObject × List ℤ :=
  match x.place, input with
  | .constructed, .socket none => ({ x with place := .thrown }, [])
  | .constructed, .socket (some fd) =>
    if x.Free fd then
      ({ x with place := .binding, listenFd := fd, table := insert fd x.table }, [])
    else (x, [])
  | .binding, .bind ok => ({ x with place := if ok then .listening else .thrown }, [])
  | .listening, .listen ok => ({ x with place := if ok then .creatingEpoll else .thrown }, [])
  | .creatingEpoll, .epollCreate none => ({ x with place := .thrown }, [])
  | .creatingEpoll, .epollCreate (some fd) =>
    if x.Free fd then
      ({ x with place := .looping, epollFd := fd, table := insert fd x.table }, [])
    else (x, [])
  | .looping, .loop .stop => (x, [])
  | .looping, .loop input => x.stepLoop input
  | .looping, .leave order =>
    match x.gateway.control with
    | .waiting =>
      if order.isPerm x.keys then
        (x.closeAll .returned (order ++ [x.epollFd, x.listenFd]),
          order ++ [x.epollFd, x.listenFd])
      else (x, [])
    | _ => (x, [])
  | .constructed, .destroy order | .returned, .destroy order | .thrown, .destroy order =>
    if order.isPerm x.keys then
      (x.closeAll .destroyed (order ++ held x.epollFd ++ held x.listenFd),
        order ++ held x.epollFd ++ held x.listenFd)
    else (x, [])
  | _, _ => (x, [])

/-- A gateway after some inputs. -/
def after (inputs : List ObjectInput) : GatewayObject := (Mealy.run step constructed inputs).1

/-! ## What the gateway owns -/

/-- The descriptors that the gateway knows. -/
def owned (x : GatewayObject) : List ℤ := x.keys ++ held x.epollFd ++ held x.listenFd

/-- What the members hold at each place. -/
def Placed (x : GatewayObject) : Prop :=
  match x.place with
  | .constructed | .returned | .destroyed => x.listenFd = -1 ∧ x.epollFd = -1 ∧ x.keys = []
  | .binding | .listening | .creatingEpoll => 0 ≤ x.listenFd ∧ x.epollFd = -1
  | .looping => 0 ≤ x.listenFd ∧ 0 ≤ x.epollFd
  | .thrown => True

/-- The invariant of a life. -/
structure Lives (x : GatewayObject) : Prop where
  accounted : Accounted x.owned x.table
  mem_keys : ∀ fd, fd ∈ x.keys ↔ (x.gateway.connections fd).isSome
  placed : x.Placed

/-- The outcome of a step keeps the invariant, and what it has closed was open and is closed
once. -/
structure Good (x : GatewayObject) (outcome : GatewayObject × List ℤ) : Prop where
  lives : outcome.1.Lives
  nodup : outcome.2.Nodup
  mem_table : ∀ fd ∈ outcome.2, fd ∈ x.table

variable {x : GatewayObject}

/-- A step that closes nothing. -/
lemma Lives.good {y : GatewayObject} (h : y.Lives) : x.Good (y, []) where
  lives := h
  nodup := List.nodup_nil
  mem_table _ hfd := absurd hfd List.not_mem_nil

/-- A member that is set holds its descriptor. -/
lemma held_of_nonneg {fd : ℤ} (h : 0 ≤ fd) : held fd = [fd] := if_pos h

lemma lives_constructed : constructed.Lives where
  accounted := Accounted.empty
  mem_keys _ := by simp [constructed, Gateway.initial]
  placed := ⟨rfl, rfl, rfl⟩

/-- All that is owned is closed. -/
lemma Lives.closeAll (h : x.Lives) {closed : List ℤ} (hclosed : closed.Perm x.owned)
    {place : GatewayPlace} (hplace : place = .returned ∨ place = .destroyed) :
    x.Good (x.closeAll place closed, closed) := by
  have hback := (h.accounted.perm hclosed).perm (List.Perm.of_eq (List.append_nil closed))
  obtain ⟨hnodup, hopen, haccounted⟩ := hback.giveBack
  refine ⟨⟨haccounted, fun fd => ?_, ?_⟩, hnodup, hopen⟩
  · simp [GatewayObject.closeAll]
  · rcases hplace with rfl | rfl <;> exact ⟨rfl, rfl, rfl⟩

/-- A step of the loop that opens a connection. -/
lemma Lives.accept (h : x.Lives) (hplace : x.place = .looping) {input : GatewayInput} {fd : ℤ}
    (hopens : x.gateway.opens input = some fd) (hfree : x.Free fd) :
    Lives { x with
      gateway := (x.gateway.step input).1
      keys := x.keys ++ [fd]
      table := insert fd x.table } := by
  have hplaced := h.placed
  unfold Placed at hplaced
  rw [hplace] at hplaced
  refine ⟨(h.accounted.get hfree.2).perm ?_, fun fd' => ?_, ?_⟩
  · unfold owned
    simp only [List.append_assoc]
    exact List.perm_middle
  · dsimp only
    rw [Gateway.connections_of_opens hopens, List.mem_append, List.mem_singleton, h.mem_keys]
    by_cases hfd : fd' = fd
    · rw [hfd, Function.update_self]
      simp
    · rw [Function.update_of_ne hfd, or_iff_left hfd]
  · unfold Placed
    dsimp only
    rw [hplace]
    exact hplaced

/-- A step of the loop that closes a connection. -/
lemma Lives.close (h : x.Lives) (hplace : x.place = .looping) {input : GatewayInput} {fd : ℤ}
    (hcloses : x.gateway.closes input = some fd) :
    x.Good ({ x with
      gateway := (x.gateway.step input).1
      keys := x.keys.erase fd
      table := x.table \ {fd} }, [fd]) := by
  have hplaced := h.placed
  unfold Placed at hplaced
  rw [hplace] at hplaced
  obtain ⟨hknown, hconnections⟩ := Gateway.connections_of_closes hcloses
  have hmem : fd ∈ x.keys := (h.mem_keys fd).mpr hknown
  have hkeys : x.keys.Nodup := by
    have hnodup := h.accounted.nodup
    unfold owned at hnodup
    exact (List.nodup_append.mp (List.nodup_append.mp hnodup).1).1
  have hperm : ([fd] ++ (x.keys.erase fd ++ held x.epollFd ++ held x.listenFd)).Perm x.owned := by
    unfold owned
    have hcons := (List.perm_cons_erase hmem).symm
    exact (hcons.append_right (held x.epollFd)).append_right (held x.listenFd)
  obtain ⟨hnodup, hopen, haccounted⟩ := (h.accounted.perm hperm).giveBack
  refine ⟨⟨haccounted, fun fd' => ?_, ?_⟩, hnodup, hopen⟩
  · dsimp only
    rw [hconnections, hkeys.mem_erase_iff, h.mem_keys]
    by_cases hfd : fd' = fd
    · rw [hfd, Function.update_self]
      simp
    · rw [Function.update_of_ne hfd, and_iff_right hfd]
  · unfold Placed
    dsimp only
    rw [hplace]
    exact hplaced

/-- A step of the loop. -/
lemma Lives.stepLoop (h : x.Lives) (hplace : x.place = .looping) {input : GatewayInput}
    (hstop : input ≠ .stop) : x.Good (x.stepLoop input) := by
  unfold GatewayObject.stepLoop
  dsimp only
  split
  · case _ fd hopens =>
    split_ifs with hfree
    · exact (h.accept hplace hopens hfree).good
    · exact h.good
  · case _ hopens =>
    split
    · case _ fd hcloses => exact h.close hplace hcloses
    · case _ hcloses =>
      have hkeys : ∀ fd, fd ∈ x.keys ↔ ((x.gateway.step input).1.connections fd).isSome := by
        intro fd
        rw [Gateway.isSome_connections_step hopens hcloses hstop, h.mem_keys]
      split
      · exact Lives.good ⟨h.accounted, hkeys, trivial⟩
      · refine Lives.good ⟨h.accounted, hkeys, ?_⟩
        have hplaced := h.placed
        unfold Placed at hplaced ⊢
        dsimp only
        rw [hplace] at hplaced ⊢
        exact hplaced

/-- `Run` has got a descriptor to listen. -/
lemma Lives.socket (h : x.Lives) (hplace : x.place = .constructed) {fd : ℤ} (hfree : x.Free fd) :
    Lives { x with place := .binding, listenFd := fd, table := insert fd x.table } := by
  have hplaced := h.placed
  unfold Placed at hplaced
  rw [hplace] at hplaced
  obtain ⟨hlisten, hepoll, hkeys⟩ := hplaced
  refine ⟨(h.accounted.get hfree.2).perm (List.Perm.of_eq ?_), h.mem_keys, hfree.1, hepoll⟩
  unfold owned
  dsimp only
  rw [hlisten, hepoll, hkeys, held_of_nonneg hfree.1]
  rfl

/-- `Run` has got a descriptor for `epoll`. -/
lemma Lives.epollCreate (h : x.Lives) (hplace : x.place = .creatingEpoll) {fd : ℤ}
    (hfree : x.Free fd) :
    Lives { x with place := .looping, epollFd := fd, table := insert fd x.table } := by
  have hplaced := h.placed
  unfold Placed at hplaced
  rw [hplace] at hplaced
  obtain ⟨hlisten, hepoll⟩ := hplaced
  refine ⟨(h.accounted.get hfree.2).perm ?_, h.mem_keys, hlisten, hfree.1⟩
  have hnone : held x.epollFd = [] := by
    rw [hepoll]
    rfl
  unfold owned
  dsimp only
  rw [hnone, held_of_nonneg hfree.1, List.append_nil, List.append_assoc]
  exact List.perm_middle

/-- Every step keeps the invariant. -/
lemma Lives.step (h : x.Lives) (input : ObjectInput) : x.Good (x.step input) := by
  have hplaced := h.placed
  unfold Placed at hplaced
  -- a call that opens and closes nothing
  have hmoves : ∀ place, Placed { x with place := place } →
      x.Good ({ x with place := place }, []) := fun place hnew =>
    Lives.good ⟨h.accounted, h.mem_keys, hnew⟩
  -- what the destructor closes
  have hdestroy : ∀ order : List ℤ, x.Good (if order.isPerm x.keys then
      (x.closeAll .destroyed (order ++ held x.epollFd ++ held x.listenFd),
        order ++ held x.epollFd ++ held x.listenFd) else (x, [])) := by
    intro order
    split_ifs with hperm
    · have hkeys := List.isPerm_iff.mp hperm
      exact h.closeAll ((hkeys.append_right _).append_right _) (.inr rfl)
    · exact h.good
  unfold GatewayObject.step
  split
  · exact hmoves .thrown trivial
  · case _ fd hplace =>
    split_ifs with hfree
    · exact (h.socket hplace hfree).good
    · exact h.good
  · case _ ok hplace =>
    rw [hplace] at hplaced
    cases ok with
    | true => exact hmoves .listening hplaced
    | false => exact hmoves .thrown trivial
  · case _ ok hplace =>
    rw [hplace] at hplaced
    cases ok with
    | true => exact hmoves .creatingEpoll hplaced
    | false => exact hmoves .thrown trivial
  · exact hmoves .thrown trivial
  · case _ fd hplace =>
    split_ifs with hfree
    · exact (h.epollCreate hplace hfree).good
    · exact h.good
  · exact h.good
  · case _ input hstop hplace => exact h.stepLoop hplace hstop
  · case _ order hplace =>
    rw [hplace] at hplaced
    split
    · split_ifs with hperm
      · refine h.closeAll ?_ (.inl rfl)
        have hkeys := List.isPerm_iff.mp hperm
        unfold owned
        rw [held_of_nonneg hplaced.1, held_of_nonneg hplaced.2, List.append_assoc]
        exact hkeys.append_right [x.epollFd, x.listenFd]
      · exact h.good
    · exact h.good
  · exact hdestroy _
  · exact hdestroy _
  · exact hdestroy _
  · exact h.good

/-! ## A whole life -/

lemma lives_after (inputs : List ObjectInput) : (after inputs).Lives :=
  Mealy.run_invariant (P := Lives) (fun _ input h => (h.step input).lives) lives_constructed inputs

/-- The open descriptors are those of the members and of the map. -/
lemma Lives.mem_table_iff (h : x.Lives) (fd : ℤ) : fd ∈ x.table ↔
    0 ≤ fd ∧ (fd = x.listenFd ∨ fd = x.epollFd) ∨ (x.gateway.connections fd).isSome := by
  have hheld : ∀ member, fd ∈ held member ↔ 0 ≤ fd ∧ fd = member := by
    intro member
    unfold held
    split_ifs with hmember
    · rw [List.mem_singleton]
      exact ⟨fun hfd => ⟨hfd ▸ hmember, hfd⟩, And.right⟩
    · refine ⟨fun hfd => absurd hfd List.not_mem_nil, fun ⟨hnonneg, hfd⟩ => ?_⟩
      exact absurd (hfd ▸ hnonneg) hmember
  rw [h.accounted.mem_iff, owned, List.mem_append, List.mem_append, hheld, hheld, h.mem_keys]
  tauto

/-- **Every descriptor is closed once.**  In the life of a gateway on which `Run` is called at most
once, whatever the system calls return and wherever `Run` throws:

* what a step closes is open at that moment and closed once, so that no descriptor is closed that by
  then is another one's;
* the open descriptors are at any time the two members, if they are set, and the keys of the map of
  connections, so that none is lost;
* nothing is open after `Run` has returned, and nothing after the destructor. -/
theorem descriptors_closed_once (inputs : List ObjectInput) :
    Mealy.Along step (fun x input => (x.step input).2.Nodup ∧
      ∀ fd ∈ (x.step input).2, fd ∈ x.table) constructed inputs ∧
    (∀ fd, fd ∈ (after inputs).table ↔
      0 ≤ fd ∧ (fd = (after inputs).listenFd ∨ fd = (after inputs).epollFd) ∨
        ((after inputs).gateway.connections fd).isSome) ∧
    ((after inputs).place = .returned ∨ (after inputs).place = .destroyed →
      (after inputs).table = ∅) := by
  have h := lives_after inputs
  refine ⟨?_, h.mem_table_iff, fun hplace => ?_⟩
  · exact Mealy.along_of_invariant (P := Lives) (fun _ input h => (h.step input).lives)
      (fun _ input h => ⟨(h.step input).nodup, (h.step input).mem_table⟩) lives_constructed inputs
  · have hplaced := h.placed
    unfold Placed at hplaced
    have howned : (after inputs).owned = [] := by
      rcases hplace with hplace | hplace
      all_goals
        rw [hplace] at hplaced
        obtain ⟨hlisten, hepoll, hkeys⟩ := hplaced
        rw [owned, hlisten, hepoll, hkeys]
        rfl
    rw [h.accounted.table_eq, howned]
    rfl

/-- Two connections; a client hangs up, and the other connection is closed by `Run`. -/
example : (Mealy.run step constructed [.socket (some 3), .bind true, .listen true,
    .epollCreate (some 4), .loop (.accept 5), .loop (.accept 6), .loop (.readFrom 5),
    .loop (.read .endOfStream), .leave [6], .destroy []]).2 = [5, 6, 4, 3] := by
  decide

end GatewayObject

end ToyExchange
