import ToyExchange.Workers.LockedThreads

/-!
# Mid prices behind seqlocks

The difference between threads that publish and read mid prices in one step and threads that do it
through seqlocks cannot be seen (`seqlocks_are_atomic`).

In one direction, the threads of `Locked` have made a run of `State` in which a mid price is
published when its `Store` ends and read when the `Load` ends.  The invariant `Tracks` ties the
seqlocks to the mid prices of the router: what a seqlock holds between two stores is the mid price
of its engine, and only the store that the matching-engine thread is at may be in progress.  In the
other direction every step of `State` is made by a `Store` or a `Load` that nobody disturbs.
-/

namespace ToyExchange

namespace Locked

variable {c : Capacities} [PriceSum]

/-! ## The invariant -/

/-- The seqlocks hold the mid prices of the router, and only the store that the matching-engine
thread is at may be in progress. -/
structure Tracks (x : Locked c) (seen : Fin instruments.length → Seqlock.Observed MidWord ℤ Unit) :
    Prop where
  consistent : ∀ i, Seqlock.Consistent (midWords none) (x.locks i) (seen i)
  current : ∀ i, (seen i).current (midWords none) = midWords (x.threads.router.engines i).midPrice
  storing : ∀ i value, (x.locks i).writer.value? = some value →
    ∃ mid, x.threads.storing = some (i, mid) ∧ value = midWords (some mid)

lemma tracks_init : (init c).Tracks fun _ => .initial where
  consistent _ := Seqlock.consistent_initial
  current _ := rfl
  storing _ _ h := by cases h

variable {x : Locked c} {seen : Fin instruments.length → Seqlock.Observed MidWord ℤ Unit}

/-- A thread that is not at a seqlock keeps the invariant. -/
lemma Tracks.thread (h : x.Tracks seen) (he : x.threads.Executing) {a : Action}
    (hbusy : a = .matching → x.threads.storing = none) :
    Tracks { x with threads := (x.threads.step a).1 } seen := by
  have hturn := State.turn_step x.threads a
  by_cases ha : a = .matching
  swap
  · -- other threads change neither the mid prices nor the command in hand
    obtain ⟨hthread, hpopped, hrouter⟩ := hturn.frame_matching ha
    refine ⟨h.consistent, fun i => ?_, fun i value hvalue => ?_⟩
    · rw [hrouter]
      exact h.current i
    · obtain ⟨mid, hmid, hwords⟩ := h.storing i value hvalue
      refine ⟨mid, ?_, hwords⟩
      unfold State.storing at hmid ⊢
      rwa [hthread, hpopped, hrouter]
  · -- no store is in progress, and nothing is stored
    have hidle := hbusy ha
    refine ⟨h.consistent, fun i => ?_, fun i value hvalue => ?_⟩
    · rw [hturn.midPrice_eq he hidle]
      exact h.current i
    · obtain ⟨mid, hmid, -⟩ := h.storing i value hvalue
      rw [hidle] at hmid
      cases hmid

/-- What has to be checked when one seqlock moves, and the threads with it. -/
lemma Tracks.update (h : x.Tracks seen) {threads : State c} {i : Fin instruments.length}
    {lock : Seqlock.System MidWord ℤ Unit} {o : Seqlock.Observed MidWord ℤ Unit}
    (hconsistent : Seqlock.Consistent (midWords none) lock o)
    (hcurrent : o.current (midWords none) = midWords (threads.router.engines i).midPrice)
    (hstoring : ∀ value, lock.writer.value? = some value →
      ∃ mid, threads.storing = some (i, mid) ∧ value = midWords (some mid))
    (hothers : ∀ j, j ≠ i →
      (threads.router.engines j).midPrice = (x.threads.router.engines j).midPrice ∧
        ∀ mid, x.threads.storing = some (j, mid) → threads.storing = some (j, mid)) :
    Tracks ⟨threads, Function.update x.locks i lock⟩ (Function.update seen i o) := by
  refine ⟨fun j => ?_, fun j => ?_, fun j value => ?_⟩
  · change Seqlock.Consistent _ (Function.update x.locks i lock j) _
    by_cases hj : j = i
    · subst hj
      rw [Function.update_self, Function.update_self]
      exact hconsistent
    · rw [Function.update_of_ne hj, Function.update_of_ne hj]
      exact h.consistent j
  · by_cases hj : j = i
    · subst hj
      rw [Function.update_self]
      exact hcurrent
    · rw [Function.update_of_ne hj, (hothers j hj).1]
      exact h.current j
  · change (Function.update x.locks i lock j).writer.value? = some value → _
    by_cases hj : j = i
    · subst hj
      rw [Function.update_self]
      exact hstoring value
    · rw [Function.update_of_ne hj]
      intro hvalue
      obtain ⟨mid, hmid, hwords⟩ := h.storing j value hvalue
      exact ⟨mid, (hothers j hj).2 mid hmid, hwords⟩

/-- The outcome of a step keeps the invariant, and the threads have made steps of `State`. -/
def Follows (x : Locked c) (seen : Fin instruments.length → Seqlock.Observed MidWord ℤ Unit)
    (outcome : Locked c × List MarketEvent) : Prop :=
  ∃ seen' actions, outcome.1.Tracks seen' ∧
    Mealy.run State.step x.threads actions = (outcome.1.threads, outcome.2) ∧
    ∀ i, (seen' i).stores.length ≤ (seen i).stores.length + 1

lemma Tracks.stays (h : x.Tracks seen) : x.Follows seen (x, []) :=
  ⟨seen, [], h, rfl, fun _ => Nat.le_succ _⟩

omit [PriceSum] in
/-- One seqlock has at most one store more. -/
lemma length_stores_update {i : Fin instruments.length} {o : Seqlock.Observed MidWord ℤ Unit}
    (h : o.stores.length ≤ (seen i).stores.length + 1) (j : Fin instruments.length) :
    (Function.update seen i o j).stores.length ≤ (seen j).stores.length + 1 := by
  by_cases hj : j = i
  · subst hj
    rwa [Function.update_self]
  · rw [Function.update_of_ne hj]
    exact Nat.le_succ _

/-- An access of `Store`: if it completes the store, the threads make the step that commits it. -/
lemma Tracks.store (h : x.Tracks seen) (he : x.threads.Executing)
    (hterm : x.threads.terminated = false) (access : Seqlock.StoreAccess MidWord) :
    x.Follows seen (x.stepStore access, []) := by
  rcases hmid : x.threads.storing with _ | ⟨i, mid⟩
  · have hstep : x.stepStore access = x := by simp only [stepStore, hmid]
    rw [hstep]
    exact h.stays
  have hconsistent :=
    Seqlock.consistent_step (h.consistent i) (access.toAccess (midWords (some mid)))
  rcases Seqlock.step_storeAccess (x.locks i) (midWords (some mid)) access with
    ⟨hevents, hvalue⟩ | ⟨value, hvalue, hevents, hidle⟩
  · -- the store goes on
    have hstep : x.stepStore access = ⟨x.threads, Function.update x.locks i
        ((x.locks i).step (access.toAccess (midWords (some mid)))).1⟩ := by
      simp only [stepStore, hmid, hevents]
    rw [hevents] at hconsistent
    rw [hstep]
    refine ⟨Function.update seen i (seen i), [], ?_, rfl, length_stores_update (Nat.le_succ _)⟩
    refine h.update hconsistent (h.current i) (fun v hv => ?_) fun j _ => ⟨rfl, fun _ => id⟩
    rcases hvalue v hv with hold | rfl
    · exact h.storing i v hold
    · exact ⟨mid, hmid, rfl⟩
  · -- it is complete, and its value is the one that is due
    obtain ⟨mid', hmid', rfl⟩ := h.storing i value hvalue
    obtain rfl := (Prod.mk.inj (Option.some.inj (hmid.symm.trans hmid'))).2
    obtain ⟨hsent, hdone, hmidPrice⟩ := State.step_of_storing he hterm hmid
    have hstep : x.stepStore access = ⟨(x.threads.step .matching).1, Function.update x.locks i
        ((x.locks i).step (access.toAccess (midWords (some mid)))).1⟩ := by
      simp only [stepStore, hmid, hevents]
    rw [hevents] at hconsistent
    rw [hstep]
    refine ⟨Function.update seen i ((seen i).observe (.stored (midWords (some mid)))), [.matching],
      ?_, Prod.ext rfl ((List.append_nil _).trans hsent), length_stores_update ?_⟩
    · refine h.update hconsistent ?_ (fun v hv => ?_) fun j hj => ⟨?_, fun mid' hmid' => ?_⟩
      · rw [hmidPrice i, if_pos rfl]
        exact Seqlock.current_stored _ _
      · rw [hidle] at hv
        cases hv
      · rw [hmidPrice j, if_neg hj]
      · exact absurd (Prod.mk.inj (Option.some.inj (hmid'.symm.trans hmid))).1 hj
    · exact List.length_append.le

/-- An access of `Load`: if it returns, the threads make the step that settles the trade. -/
lemma Tracks.load (h : x.Tracks seen) (he : x.threads.Executing)
    (hterm : x.threads.terminated = false) (hshort : ∀ i, (seen i).stores.length < 2 ^ 63)
    (access : Seqlock.LoadAccess MidWord) : x.Follows seen (x.stepLoad access, []) := by
  rcases hload : x.threads.loading with _ | ⟨i, trade⟩
  · have hstep : x.stepLoad access = x := by simp only [stepLoad, hload]
    rw [hstep]
    exact h.stays
  have hconsistent := Seqlock.consistent_step (h.consistent i) (access.toAccess ())
  obtain ⟨hwriter, hevents⟩ := Seqlock.step_loadAccess (x.locks i) () access
  -- the writer has not moved
  have hstoring : ∀ value, ((x.locks i).step (access.toAccess ())).1.writer.value? = some value →
      ∃ mid, x.threads.storing = some (i, mid) ∧ value = midWords (some mid) := by
    rw [hwriter]
    exact h.storing i
  rcases hevents with hevents | hevents | ⟨value, hevents⟩
  · have hstep : x.stepLoad access = ⟨x.threads, Function.update x.locks i
        ((x.locks i).step (access.toAccess ())).1⟩ := by
      simp only [stepLoad, hload, hevents]
    rw [hevents] at hconsistent
    rw [hstep]
    refine ⟨Function.update seen i (seen i), [], ?_, rfl, length_stores_update (Nat.le_succ _)⟩
    exact h.update hconsistent (h.current i) hstoring fun j _ => ⟨rfl, fun _ => id⟩
  · have hstep : x.stepLoad access = ⟨x.threads, Function.update x.locks i
        ((x.locks i).step (access.toAccess ())).1⟩ := by
      simp only [stepLoad, hload, hevents]
    rw [hevents] at hconsistent
    rw [hstep]
    refine ⟨Function.update seen i ((seen i).observe (.began ())), [], ?_, rfl,
      length_stores_update (Nat.le_succ _)⟩
    exact h.update hconsistent (h.current i) hstoring fun j _ => ⟨rfl, fun _ => id⟩
  · -- the load returns the mid price of the router
    have hvalue := (h.consistent i).returned hevents (hshort i)
    have hsettle := State.step_of_loading hterm hload
    have hsent : (x.threads.step .inventory).2 = [] := by rw [hsettle]
    have hstep : x.stepLoad access = ⟨(x.threads.step .inventory).1, Function.update x.locks i
        ((x.locks i).step (access.toAccess ())).1⟩ := by
      simp only [stepLoad, hload, hevents, hsettle]
      rw [hvalue, h.current i, ofMidWords_midWords]
    rw [hevents] at hconsistent
    have hthread := h.thread he (a := .inventory) (fun ha => by cases ha)
    rw [hstep]
    refine ⟨Function.update seen i ((seen i).observe (.returned () value)), [.inventory], ?_, ?_,
      length_stores_update (Nat.le_succ _)⟩
    · refine hthread.update hconsistent (hthread.current i) ?_ fun j _ => ⟨rfl, fun _ => id⟩
      rw [hwriter]
      exact hthread.storing i
    · exact Prod.ext rfl ((List.append_nil _).trans hsent)

/-- Every step keeps the invariant, and the threads make no step or one of `State`. -/
lemma Tracks.step (h : x.Tracks seen) (he : x.threads.Executing)
    (hshort : ∀ i, (seen i).stores.length < 2 ^ 63) (input : LockedInput) :
    x.Follows seen (x.step input) := by
  unfold Locked.step
  split_ifs with hterm
  · exact h.stays
  rw [Bool.not_eq_true] at hterm
  rcases input with a | access | access
  · dsimp only
    split_ifs with hbusy
    · exact h.stays
    · refine ⟨seen, [a], h.thread he ?_, ?_, fun i => Nat.le_succ _⟩
      · rintro rfl
        exact Option.not_isSome_iff_eq_none.mp hbusy
      · exact Prod.ext rfl (List.append_nil _)
  · exact h.store he hterm access
  · exact h.load he hterm hshort access

/-! ## Refinement -/

/-- In a run of fewer than `2 ^ 63` steps the invariant holds, and the threads have made a run of
`State`. -/
lemma exists_tracks (c : Capacities) {inputs : List LockedInput}
    (hlength : inputs.length < 2 ^ 63) :
    ∃ seen actions, (after c inputs).Tracks seen ∧
      (∀ i, (seen i).stores.length ≤ inputs.length) ∧
      Mealy.run State.step (State.init c) actions =
        ((after c inputs).threads, (Mealy.run step (init c) inputs).2) := by
  induction inputs using List.reverseRecOn with
  | nil => exact ⟨_, [], tracks_init, fun _ => Nat.zero_le _, rfl⟩
  | append_singleton inputs input ih =>
    rw [List.length_append, List.length_singleton] at hlength ⊢
    obtain ⟨seen, actions, htracks, hstores, hrun⟩ := ih (by omega)
    have hafter : after c (inputs ++ [input]) = ((after c inputs).step input).1 :=
      Mealy.run_concat_fst ..
    have hexecuting : (after c inputs).threads.Executing := by
      have hexecuting := State.executing_after c actions
      unfold State.after at hexecuting
      rwa [hrun] at hexecuting
    obtain ⟨seen', actions', htracks', hrun', hstores'⟩ :=
      htracks.step hexecuting (fun i => (hstores i).trans_lt (by omega)) input
    refine ⟨seen', actions ++ actions', hafter ▸ htracks', fun i => ?_, ?_⟩
    · exact (hstores' i).trans (Nat.succ_le_succ (hstores i))
    · rw [hafter]
      refine Prod.ext ?_ ?_
      · rw [Mealy.run_append_fst, hrun, hrun']
      · rw [Mealy.run_append_snd, hrun, hrun', Mealy.run_concat_snd]
        rfl

/-! ## Every run of `State` -/

/-- No store and no load is in progress, and the seqlock holds the mid price. -/
structure QuietLock (lock : Seqlock.System MidWord ℤ Unit) (mid : Option ℤ) : Prop where
  writer : lock.writer = .idle
  reader : lock.readers () = .idle
  even : lock.lock.sequence % 2 = 0
  value : lock.lock.value = midWords mid

/-- All seqlocks are quiet. -/
def Quiet (x : Locked c) : Prop :=
  ∀ i, QuietLock (x.locks i) (x.threads.router.engines i).midPrice

omit [PriceSum] in
/-- What has to be checked when one seqlock moves, and the threads with it. -/
lemma Quiet.update (h : x.Quiet) {threads : State c} {i : Fin instruments.length}
    {lock : Seqlock.System MidWord ℤ Unit}
    (hlock : QuietLock lock (threads.router.engines i).midPrice)
    (hothers : ∀ j, j ≠ i →
      (threads.router.engines j).midPrice = (x.threads.router.engines j).midPrice) :
    Quiet ⟨threads, Function.update x.locks i lock⟩ := by
  intro j
  change QuietLock (Function.update x.locks i lock j) (threads.router.engines j).midPrice
  by_cases hj : j = i
  · subst hj
    rw [Function.update_self]
    exact hlock
  · rw [Function.update_of_ne hj, hothers j hj]
    exact h j

/-- Accesses of a `Store` that do not complete it move the seqlock only. -/
lemma run_stores {i : Fin instruments.length} {mid : ℤ}
    (accesses : List (Seqlock.StoreAccess MidWord)) {lock : Seqlock.System MidWord ℤ Unit}
    (hterm : x.threads.terminated = false) (hmid : x.threads.storing = some (i, mid))
    (hrun : Mealy.run Seqlock.System.step (x.locks i)
      (accesses.map (Seqlock.StoreAccess.toAccess (midWords (some mid)))) = (lock, [])) :
    Mealy.run step x (accesses.map .store) =
      (⟨x.threads, Function.update x.locks i lock⟩, []) := by
  induction accesses generalizing x with
  | nil =>
    obtain rfl : x.locks i = lock := congrArg Prod.fst hrun
    rw [Function.update_eq_self]
    rfl
  | cons access accesses ih =>
    obtain ⟨hfirst, hrest⟩ := List.append_eq_nil_iff.mp (congrArg Prod.snd hrun)
    have hstep : x.step (.store access) = (⟨x.threads, Function.update x.locks i
        ((x.locks i).step (access.toAccess (midWords (some mid)))).1⟩, []) := by
      simp only [step, hterm, Bool.false_eq_true, if_false, stepStore, hmid, hfirst]
    have hnext := ih (x := ⟨x.threads, Function.update x.locks i
      ((x.locks i).step (access.toAccess (midWords (some mid)))).1⟩) hterm hmid (by
        dsimp only
        rw [Function.update_self]
        exact Prod.ext (congrArg Prod.fst hrun :) hrest)
    rw [List.map_cons, Mealy.run, hstep, hnext, Function.update_idem]
    rfl

/-- Accesses of a `Load` that do not return from it move the seqlock only. -/
lemma run_loads {i : Fin instruments.length} {trade : Trade}
    (accesses : List (Seqlock.LoadAccess MidWord)) {lock : Seqlock.System MidWord ℤ Unit}
    {events : List (Seqlock.Event MidWord ℤ Unit)}
    (hterm : x.threads.terminated = false) (hload : x.threads.loading = some (i, trade))
    (hrun : Mealy.run Seqlock.System.step (x.locks i)
      (accesses.map (Seqlock.LoadAccess.toAccess ())) = (lock, events))
    (hevents : ∀ value, .returned () value ∉ events) :
    Mealy.run step x (accesses.map .load) =
      (⟨x.threads, Function.update x.locks i lock⟩, []) := by
  induction accesses generalizing x events with
  | nil =>
    obtain rfl : x.locks i = lock := congrArg Prod.fst hrun
    rw [Function.update_eq_self]
    rfl
  | cons access accesses ih =>
    obtain ⟨hlock, rfl⟩ := Prod.mk.inj hrun
    have hstep : x.step (.load access) = (⟨x.threads, Function.update x.locks i
        ((x.locks i).step (access.toAccess ())).1⟩, []) := by
      rcases (Seqlock.step_loadAccess (x.locks i) () access).2 with h | h | ⟨value, h⟩
      · simp only [step, hterm, Bool.false_eq_true, if_false, stepLoad, hload, h]
      · simp only [step, hterm, Bool.false_eq_true, if_false, stepLoad, hload, h]
      · refine absurd ?_ (hevents value)
        rw [h]
        exact List.mem_append_left _ (List.mem_singleton_self _)
    have hnext := ih (x := ⟨x.threads, Function.update x.locks i
      ((x.locks i).step (access.toAccess ())).1⟩) hterm hload
      (by
        dsimp only
        rw [Function.update_self]
        exact Prod.ext hlock rfl)
      (fun value hvalue => hevents value (List.mem_append_right _ hvalue))
    rw [List.map_cons, Mealy.run, hstep, hnext, Function.update_idem]
    rfl

/-- The threads make a step of `State` by accesses that end in a quiet state. -/
def Performs (x : Locked c) (a : Action) : Prop :=
  ∃ inputs y, Mealy.run step x inputs = (y, (x.threads.step a).2) ∧
    y.threads = (x.threads.step a).1 ∧ y.Quiet

/-- A whole `Store` is a step of the matching-engine thread. -/
lemma Quiet.store (h : x.Quiet) (he : x.threads.Executing)
    (hterm : x.threads.terminated = false) {i : Fin instruments.length} {mid : ℤ}
    (hmid : x.threads.storing = some (i, mid)) : x.Performs .matching := by
  obtain ⟨hsent, -, hmidPrice⟩ := State.step_of_storing he hterm hmid
  have hwords := run_stores storeWords hterm hmid (run_storeWords (h i).writer _)
  have heven := (h i).even
  refine ⟨storeWords.map .store ++ [.store .storeEven],
    ⟨(x.threads.step .matching).1, Function.update x.locks i
      ⟨⟨(((x.locks i).lock.sequence + 2) % 2 ^ 64), midWords (some mid)⟩, .idle,
        (x.locks i).readers⟩⟩, Prod.ext ?_ ?_, rfl, h.update ?_ fun j hj => ?_⟩
  · rw [Mealy.run_concat_fst, hwords]
    simp [step, hterm, stepStore, hmid, Seqlock.System.step, Seqlock.StoreAccess.toAccess]
  · rw [Mealy.run_concat_snd, hwords, hsent]
    simp [step, hterm]
  · rw [hmidPrice i, if_pos rfl]
    refine ⟨rfl, (h i).reader, ?_, rfl⟩
    dsimp only
    omega
  · rw [hmidPrice j, if_neg hj]

/-- A whole `Load` is a step of the inventory thread. -/
lemma Quiet.load (h : x.Quiet) (hterm : x.threads.terminated = false)
    {i : Fin instruments.length} {trade : Trade} (hload : x.threads.loading = some (i, trade)) :
    x.Performs .inventory := by
  have hsettle := State.step_of_loading hterm hload
  have hwords := run_loads loadWords hterm hload (run_loadWords (h i).reader) (by simp)
  refine ⟨loadWords.map .load ++ [.load .loadAfter],
    ⟨(x.threads.step .inventory).1, Function.update x.locks i ((x.locks i).setReader () .idle)⟩,
    Prod.ext ?_ ?_, rfl, h.update ?_ fun j hj => ?_⟩
  · rw [Mealy.run_concat_fst, hwords]
    simp [step, hterm, stepLoad, hload, Seqlock.System.step, Seqlock.LoadAccess.toAccess,
      Seqlock.System.setReader, (h i).even, hsettle, (h i).value]
  · rw [Mealy.run_concat_snd, hwords, hsettle]
    simp [step, hterm]
  · rw [hsettle]
    exact ⟨(h i).writer, Seqlock.System.readers_setReader_self .., (h i).even, (h i).value⟩
  · rw [hsettle]
    rfl

/-- Every step of `State` can be made. -/
lemma Quiet.performs (h : x.Quiet) (he : x.threads.Executing) (a : Action) : x.Performs a := by
  cases hterm : x.threads.terminated with
  | true =>
    have hrests : x.threads.step a = (x.threads, []) := if_pos hterm
    exact ⟨[], x, by rw [hrests]; rfl, by rw [hrests], h⟩
  | false =>
    by_cases hbusy : x.busy a = true
    · cases a with
      | matching =>
        obtain ⟨⟨i, mid⟩, hmid⟩ := Option.isSome_iff_exists.mp hbusy
        exact h.store he hterm hmid
      | inventory =>
        obtain ⟨⟨i, trade⟩, hload⟩ := Option.isSome_iff_exists.mp hbusy
        exact h.load hterm hload
      | _ => cases hbusy
    · refine ⟨[.thread a], ⟨(x.threads.step a).1, x.locks⟩, ?_, rfl, fun i => ?_⟩
      · simp [Mealy.run, step, hterm, hbusy]
      · have hsame : ((x.threads.step a).1.router.engines i).midPrice =
            (x.threads.router.engines i).midPrice := by
          by_cases ha : a = .matching
          · subst ha
            exact (State.turn_step x.threads .matching).midPrice_eq he
              (Option.not_isSome_iff_eq_none.mp hbusy) i
          · rw [((State.turn_step x.threads a).frame_matching ha).2.2]
        change QuietLock (x.locks i) _
        rw [hsame]
        exact h i

/-- Every run of `State` can be made. -/
lemma exists_inputs (c : Capacities) (actions : List Action) :
    ∃ inputs, (after c inputs).threads = State.after c actions ∧
      (Mealy.run step (init c) inputs).2 = (Mealy.run State.step (State.init c) actions).2 ∧
      (after c inputs).Quiet := by
  induction actions using List.reverseRecOn with
  | nil => exact ⟨[], rfl, rfl, fun _ => ⟨rfl, rfl, rfl, rfl⟩⟩
  | append_singleton actions a ih =>
    obtain ⟨inputs, hthreads, hsent, hquiet⟩ := ih
    have he : (after c inputs).threads.Executing := hthreads ▸ State.executing_after c actions
    obtain ⟨more, y, hrun, hstep, hquiet'⟩ := hquiet.performs he a
    have hafter : after c (inputs ++ more) = y := by
      unfold after at hrun ⊢
      rw [Mealy.run_append_fst, hrun]
    refine ⟨inputs ++ more, ?_, ?_, hafter ▸ hquiet'⟩
    · rw [hafter, hstep, hthreads, State.after, State.after, Mealy.run_concat_fst]
    · unfold after at hrun hthreads
      rw [Mealy.run_append_snd, hsent, hrun, hthreads, Mealy.run_concat_snd]
      rfl

/-- **Seqlocks make mid prices atomic.**  The threads with seqlocks, in which every access of a
`Store` and of a `Load` to memory is a step of its own, and the threads in which a mid price is
published in one step and read in one step, cannot be told apart.  Every run of the former with
fewer than `2 ^ 63` steps leads to the queues, books and accounts, and sends the datagrams, of a run
of the latter, and every run of the latter is matched by one of the former. -/
theorem seqlocks_are_atomic (c : Capacities) :
    (∀ inputs, inputs.length < 2 ^ 63 → ∃ actions,
      Mealy.run State.step (State.init c) actions =
        ((after c inputs).threads, (Mealy.run step (init c) inputs).2)) ∧
    ∀ actions, ∃ inputs, Mealy.run State.step (State.init c) actions =
      ((after c inputs).threads, (Mealy.run step (init c) inputs).2) := by
  constructor
  · intro inputs hlength
    obtain ⟨-, actions, -, -, hrun⟩ := exists_tracks c hlength
    exact ⟨actions, hrun⟩
  · intro actions
    obtain ⟨inputs, hthreads, hsent, -⟩ := exists_inputs c actions
    exact ⟨inputs, Prod.ext hthreads.symm hsent.symm⟩

end Locked

end ToyExchange
