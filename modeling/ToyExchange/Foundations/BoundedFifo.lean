import Mathlib.Data.List.Infix
import Mathlib.Tactic.Common

/-!
# Bounded queues and the loops that poll them

A single-producer single-consumer queue of bounded capacity, with the history of what went in and
what came out.  A push fails exactly when the queue is full and a pop exactly when it is empty.

`PollLoop` is the control state of a consumer that pops until its producer is known to have ended.
It tries to pop (`popping`); after a failed attempt it reads a flag (`checkFlag`), and leaves the
loop if the flag is set.  The attempt and the read are two steps, and anything may happen between
them.  A consumer is awake if it has work in hand, or its queue is not empty, or its flag is set;
`debt` measures what it has to do, and every step of a consumer that is awake lowers it.
-/

/-- A queue of at most `capacity` items. -/
structure BoundedFifo (α : Type*) (capacity : ℕ) where
  /-- Everything pushed so far, oldest first. -/
  pushed : List α
  /-- Everything popped so far, oldest first. -/
  popped : List α
  /-- What is in the queue, oldest first. -/
  items : List α
  /-- Items leave in the order in which they came. -/
  history : pushed = popped ++ items
  /-- The capacity is not exceeded. -/
  bounded : items.length ≤ capacity

namespace BoundedFifo

variable {α : Type*} {capacity : ℕ}

/-- A queue nothing was pushed to. -/
def empty : BoundedFifo α capacity := ⟨[], [], [], rfl, Nat.zero_le _⟩

/-- Push an item, unless the queue is full. -/
def push (q : BoundedFifo α capacity) (x : α) : Option (BoundedFifo α capacity) :=
  if h : q.items.length < capacity then
    some ⟨q.pushed ++ [x], q.popped, q.items ++ [x],
      by rw [q.history, List.append_assoc],
      by rw [List.length_append]; exact h⟩
  else none

/-- Pop the oldest item, unless the queue is empty. -/
def pop (q : BoundedFifo α capacity) : Option (α × BoundedFifo α capacity) :=
  match h : q.items with
  | [] => none
  | x :: rest =>
    some (x, ⟨q.pushed, q.popped ++ [x], rest,
      by rw [q.history, h, List.append_assoc]; rfl,
      by
        have hbounded := q.bounded
        rw [h, List.length_cons] at hbounded
        omega⟩)

/-- What a successful push does. -/
lemma push_eq_some {q q' : BoundedFifo α capacity} {x : α} (h : q.push x = some q') :
    q'.pushed = q.pushed ++ [x] ∧ q'.popped = q.popped ∧ q'.items = q.items ++ [x] := by
  unfold push at h
  split_ifs at h
  obtain rfl := Option.some.inj h
  exact ⟨rfl, rfl, rfl⟩

/-- What a successful pop does. -/
lemma pop_eq_some {q q' : BoundedFifo α capacity} {x : α} (h : q.pop = some (x, q')) :
    q'.pushed = q.pushed ∧ q'.popped = q.popped ++ [x] ∧ q.items = x :: q'.items := by
  unfold pop at h
  split at h
  · cases h
  · rename_i y rest hitems
    obtain ⟨rfl, rfl⟩ := Prod.mk.inj (Option.some.inj h)
    exact ⟨rfl, rfl, hitems⟩

/-- A pop fails only on an empty queue. -/
lemma exists_pop {q : BoundedFifo α capacity} (h : q.items ≠ []) :
    ∃ x q', q.pop = some (x, q') := by
  unfold pop
  split
  · rename_i hitems
    exact absurd hitems h
  · exact ⟨_, _, rfl⟩

lemma pop_eq_none {q : BoundedFifo α capacity} (h : q.items = []) : q.pop = none := by
  unfold pop
  split
  · rfl
  · rename_i hitems
    rw [h] at hitems
    cases hitems

/-- A push fails only on a full queue, which has something in it. -/
lemma items_ne_nil_of_push {q : BoundedFifo α capacity} {x : α} (hcapacity : 1 ≤ capacity)
    (h : q.push x = none) : q.items ≠ [] := by
  unfold push at h
  split_ifs at h with hfull
  intro hnil
  rw [hnil, List.length_nil] at hfull
  omega

/-- What was popped is a beginning of what was pushed. -/
lemma popped_prefix (q : BoundedFifo α capacity) : q.popped <+: q.pushed :=
  ⟨q.items, q.history.symm⟩

/-- Everything pushed was popped exactly when the queue is empty. -/
lemma popped_eq_pushed_iff (q : BoundedFifo α capacity) : q.popped = q.pushed ↔ q.items = [] := by
  rw [q.history]
  simp

end BoundedFifo

/-- Where a consumer is: about to pop, between a failed pop and the read of the flag, at work on
what it popped, or out of its loop. -/
inductive PollLoop (ω : Type*) where
  | popping
  | checkFlag
  | working (work : ω)
  | finished

namespace PollLoop

variable {α ω : Type*} {capacity : ℕ}

instance (l : PollLoop ω) : Decidable (l = .finished) :=
  match l with
  | .popping => isFalse nofun
  | .checkFlag => isFalse nofun
  | .working _ => isFalse nofun
  | .finished => isTrue rfl

/-- The work in hand. -/
def work? : PollLoop ω → Option ω
  | .working w => some w
  | _ => none

lemma eq_working_of_work? {l : PollLoop ω} {w : ω} (h : l.work? = some w) : l = .working w := by
  cases l with
  | working w' => exact congrArg working (Option.some.inj h)
  | popping | checkFlag | finished => cases h

lemma work?_eq_none {l : PollLoop ω} (h : ∀ w, l ≠ .working w) : l.work? = none := by
  cases l with
  | working w => exact absurd rfl (h w)
  | popping | checkFlag | finished => rfl

/-- One step of a consumer that is not at work: try to pop, or read the flag after a failed
attempt.  Popping `x` starts the work `start x`. -/
def poll (start : α → ω) (flag : Bool) (l : PollLoop ω) (q : BoundedFifo α capacity) :
    PollLoop ω × BoundedFifo α capacity :=
  match l with
  | .popping =>
    match q.pop with
    | some (x, q') => (.working (start x), q')
    | none => (.checkFlag, q)
  | .checkFlag => (if flag then .finished else .popping, q)
  | .working w => (.working w, q)
  | .finished => (.finished, q)

/-- The outcomes of `poll`: the next control state and the queue. -/
inductive Polls (start : α → ω) (flag : Bool) (l : PollLoop ω) (q : BoundedFifo α capacity) :
    PollLoop ω → BoundedFifo α capacity → Prop
  | takes {x : α} {q' : BoundedFifo α capacity} (hl : l = .popping) (hpop : q.pop = some (x, q')) :
      Polls start flag l q (.working (start x)) q'
  | misses (hl : l = .popping) : Polls start flag l q .checkFlag q
  | leaves (hl : l = .checkFlag) (hflag : flag = true) : Polls start flag l q .finished q
  | retries (hl : l = .checkFlag) : Polls start flag l q .popping q
  | rests : Polls start flag l q l q

lemma polls_poll (start : α → ω) (flag : Bool) (l : PollLoop ω) (q : BoundedFifo α capacity) :
    Polls start flag l q (poll start flag l q).1 (poll start flag l q).2 := by
  cases l with
  | popping =>
    unfold poll
    cases hpop : q.pop with
    | none => exact .misses rfl
    | some p => exact .takes rfl hpop
  | checkFlag =>
    unfold poll
    cases flag with
    | false => exact .retries rfl
    | true => exact .leaves rfl rfl
  | working w => exact .rests
  | finished => exact .rests

/-- A loop that was left stays left. -/
lemma Polls.of_finished {start : α → ω} {flag : Bool} {l l' : PollLoop ω}
    {q q' : BoundedFifo α capacity} (h : Polls start flag l q l' q') (hl : l = .finished) :
    l' = .finished := by
  cases h with
  | takes h | misses h | leaves h | retries h => exact absurd (hl.symm.trans h) nofun
  | rests => exact hl

/-- A poll that ends outside the loop has popped nothing. -/
lemma Polls.items_of_finished {start : α → ω} {flag : Bool} {l l' : PollLoop ω}
    {q q' : BoundedFifo α capacity} (h : Polls start flag l q l' q') (hl' : l' = .finished) :
    q'.items = q.items := by
  cases h with
  | takes => cases hl'
  | misses | leaves | retries | rests => rfl

/-- A loop is left only after its flag was read as set. -/
lemma Polls.flag_of_finished {start : α → ω} {flag : Bool} {l l' : PollLoop ω}
    {q q' : BoundedFifo α capacity} (h : Polls start flag l q l' q') (hl' : l' = .finished) :
    l = .finished ∨ flag = true := by
  cases h with
  | takes | misses | retries => cases hl'
  | leaves _ hflag => exact .inr hflag
  | rests => exact .inl hl'

/-- Polling pushes nothing. -/
lemma Polls.pushed_eq {start : α → ω} {flag : Bool} {l l' : PollLoop ω}
    {q q' : BoundedFifo α capacity} (h : Polls start flag l q l' q') : q'.pushed = q.pushed := by
  cases h with
  | takes _ hpop => exact (BoundedFifo.pop_eq_some hpop).1
  | misses | leaves | retries | rests => rfl

/-- What an idle consumer pops is what it has to work on. -/
lemma Polls.popped_eq {start : α → ω} {flag : Bool} {l l' : PollLoop ω}
    {q q' : BoundedFifo α capacity} (h : Polls start flag l q l' q') (hidle : l.work? = none) :
    ∃ more, q'.popped = q.popped ++ more ∧ l'.work?.toList = more.map start := by
  cases h with
  | takes _ hpop => exact ⟨_, (BoundedFifo.pop_eq_some hpop).2.1, rfl⟩
  | misses | leaves | retries => exact ⟨[], (List.append_nil _).symm, rfl⟩
  | rests =>
    rw [hidle]
    exact ⟨[], (List.append_nil _).symm, rfl⟩

/-- The polls that do something: take an item, or leave the loop because the flag is set. -/
inductive Acts (start : α → ω) (flag : Bool) (l : PollLoop ω) (q : BoundedFifo α capacity) :
    PollLoop ω → BoundedFifo α capacity → Prop
  | takes {x : α} {q' : BoundedFifo α capacity} (hl : l = .popping) (hpop : q.pop = some (x, q')) :
      Acts start flag l q (.working (start x)) q'
  | leaves (hl : l = .checkFlag) (hflag : flag = true) : Acts start flag l q .finished q

lemma Acts.idle {start : α → ω} {flag : Bool} {l l' : PollLoop ω} {q q' : BoundedFifo α capacity}
    (h : Acts start flag l q l' q') : l.work? = none := by
  cases h with
  | takes hl => rw [hl]; rfl
  | leaves hl => rw [hl]; rfl

/-- An attempt to pop from an empty queue does nothing. -/
lemma not_acts_of_empty {start : α → ω} {flag : Bool} {l l' : PollLoop ω}
    {q q' : BoundedFifo α capacity} (hl : l = .popping) (hitems : q.items = []) :
    ¬ Acts start flag l q l' q' := by
  intro h
  cases h with
  | takes _ hpop =>
    rw [BoundedFifo.pop_eq_none hitems] at hpop
    cases hpop
  | leaves hcheck => rw [hl] at hcheck; cases hcheck

/-- The consumer is at an attempt to pop that fails, or behind one. -/
def AtFailedPop (q : BoundedFifo α capacity) : PollLoop ω → Prop
  | .popping => q.items = []
  | .checkFlag => True
  | .working _ | .finished => False

/-- A consumer that finds its queue not empty, or its flag set, does something in its next poll or,
at or behind a failed pop, in the one after: a failed pop is followed by the read of the flag, and a
flag that is not set by another attempt to pop. -/
theorem acts_within_two (start : α → ω) {flag : Bool} {l : PollLoop ω} {q : BoundedFifo α capacity}
    (hidle : l.work? = none) (hrunning : l ≠ .finished) (h : flag = true ∨ q.items ≠ []) :
    Acts start flag l q (poll start flag l q).1 (poll start flag l q).2 ∨
      l.AtFailedPop q ∧ Acts start flag (poll start flag l q).1 (poll start flag l q).2
        (poll start flag (poll start flag l q).1 (poll start flag l q).2).1
        (poll start flag (poll start flag l q).1 (poll start flag l q).2).2 := by
  cases l with
  | working w => cases hidle
  | finished => exact absurd rfl hrunning
  | popping =>
    by_cases hitems : q.items = []
    · -- the pop fails, but then the flag is set
      have hflag : flag = true := h.resolve_right (not_not.mpr hitems)
      right
      refine ⟨hitems, ?_⟩
      subst hflag
      simp only [poll, BoundedFifo.pop_eq_none hitems]
      exact .leaves rfl rfl
    · obtain ⟨x, q', hpop⟩ := BoundedFifo.exists_pop hitems
      left
      simp only [poll, hpop]
      exact .takes rfl hpop
  | checkFlag =>
    cases flag with
    | true =>
      left
      exact .leaves rfl rfl
    | false =>
      -- the flag is not set, so there is something to pop
      obtain ⟨x, q', hpop⟩ := BoundedFifo.exists_pop (h.resolve_left Bool.false_ne_true)
      right
      refine ⟨trivial, ?_⟩
      simp only [poll, hpop]
      exact .takes rfl hpop

/-! ## How far a consumer has to go -/

/-- The consumer has work in hand, or is about to get some or to leave its loop. -/
def Awake (flag : Bool) (q : BoundedFifo α capacity) : PollLoop ω → Prop
  | .working _ => True
  | .finished => False
  | .popping | .checkFlag => flag = true ∨ q.items ≠ []

lemma awake_of_ne_finished {flag : Bool} {q : BoundedFifo α capacity} {l : PollLoop ω}
    (hl : l ≠ .finished) (h : flag = true ∨ q.items ≠ []) : l.Awake flag q := by
  rcases l with _ | _ | w | _
  · exact h
  · exact h
  · trivial
  · exact absurd rfl hl

/-- A bound on the polls up to the one that does something; it is constant while there is nothing
to do. -/
def distance (flag : Bool) (q : BoundedFifo α capacity) : PollLoop ω → ℕ
  | .working _ | .finished => 0
  | .popping => if q.items ≠ [] then 1 else if flag then 2 else 3
  | .checkFlag => if flag then 1 else if q.items ≠ [] then 2 else 3

lemma distance_le (flag : Bool) (q : BoundedFifo α capacity) (l : PollLoop ω) :
    distance flag q l ≤ 3 := by
  unfold distance
  split
  · omega
  · omega
  · split_ifs <;> omega
  · split_ifs <;> omega

/-- A poll of an idle consumer that is awake takes an item, or comes closer to doing something. -/
lemma poll_of_awake (start : α → ω) {flag : Bool} {q : BoundedFifo α capacity} {l : PollLoop ω}
    (hidle : l.work? = none) (hawake : l.Awake flag q) :
    (∃ x q', q.pop = some (x, q') ∧ poll start flag l q = (.working (start x), q')) ∨
      ((poll start flag l q).2 = q ∧ (poll start flag l q).1.work? = none ∧
        distance flag q (poll start flag l q).1 < distance flag q l) := by
  rcases l with _ | _ | w | _
  · by_cases hitems : q.items = []
    · right
      have hflag : flag = true := hawake.resolve_right (not_not.mpr hitems)
      simp [poll, BoundedFifo.pop_eq_none hitems, hflag, distance, hitems, work?]
    · left
      obtain ⟨x, q', hpop⟩ := BoundedFifo.exists_pop hitems
      exact ⟨x, q', hpop, by simp only [poll, hpop]⟩
  · right
    by_cases hflag : flag = true
    · simp [poll, hflag, distance, work?]
    · have hitems := hawake.resolve_left hflag
      simp [poll, hflag, distance, hitems, work?]
  · cases hidle
  · exact hawake.elim

/-- A poll of a consumer that is not awake leads nowhere. -/
lemma poll_of_not_awake (start : α → ω) {flag : Bool} {q : BoundedFifo α capacity}
    {l : PollLoop ω} (hasleep : ¬ l.Awake flag q) :
    (poll start flag l q).2 = q ∧ (poll start flag l q).1.work? = none ∧
      distance flag q (poll start flag l q).1 = distance flag q l ∧
      (l = .finished → (poll start flag l q).1 = .finished) := by
  rcases l with _ | _ | w | _
  · obtain ⟨hflag, hitems⟩ := not_or.mp hasleep
    rw [not_not] at hitems
    simp [poll, BoundedFifo.pop_eq_none hitems, distance, hitems, hflag, work?]
  · obtain ⟨hflag, hitems⟩ := not_or.mp hasleep
    rw [not_not] at hitems
    simp [poll, distance, hitems, hflag, work?]
  · exact absurd trivial hasleep
  · exact ⟨rfl, rfl, rfl, fun _ => rfl⟩

/-- The work that waits for a consumer and the work in hand, and how far it is from doing
something. -/
def debt (flag : Bool) (q : BoundedFifo α capacity) (l : PollLoop ω) : ℕ :=
  4 * (2 * q.items.length + l.work?.toList.length) + distance flag q l

/-- A poll of an idle consumer that is awake lowers its debt. -/
lemma debt_poll_lt (start : α → ω) {flag : Bool} {q : BoundedFifo α capacity} {l : PollLoop ω}
    (hidle : l.work? = none) (hawake : l.Awake flag q) :
    debt flag (poll start flag l q).2 (poll start flag l q).1 < debt flag q l := by
  unfold debt
  rcases poll_of_awake start hidle hawake with ⟨x, q', hpop, hpoll⟩ | ⟨hq, hnone, hlt⟩
  · have hitems := congrArg List.length (BoundedFifo.pop_eq_some hpop).2.2
    rw [List.length_cons] at hitems
    rw [hpoll, hidle, hitems]
    simp only [work?, distance, Option.toList_some, Option.toList_none, List.length_singleton,
      List.length_nil]
    omega
  · rw [hq, hnone, hidle]
    omega

/-- Completing the work in hand lowers the debt. -/
lemma debt_popping_lt (flag : Bool) (q : BoundedFifo α capacity) (w : ω) :
    debt flag q (.popping : PollLoop ω) < debt flag q (.working w) := by
  have hle := distance_le flag q (.popping : PollLoop ω)
  unfold debt
  simp only [work?, distance, Option.toList_some, Option.toList_none, List.length_singleton,
    List.length_nil] at hle ⊢
  omega

/-- A poll that leads nowhere leaves the debt alone. -/
lemma debt_poll_eq (start : α → ω) {flag : Bool} {q : BoundedFifo α capacity} {l : PollLoop ω}
    (hidle : l.work? = none) (hasleep : ¬ l.Awake flag q) :
    debt flag (poll start flag l q).2 (poll start flag l q).1 = debt flag q l := by
  obtain ⟨hq, hnone, hdistance, -⟩ := poll_of_not_awake start hasleep
  unfold debt
  rw [hq, hnone, hdistance, hidle]

end PollLoop
