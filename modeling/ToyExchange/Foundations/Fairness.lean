import Mathlib.Order.WellFounded
import Mathlib.Data.List.Range
import ToyExchange.Foundations.Mealy

/-!
# Progress under fair schedules

A schedule is an infinite sequence of inputs of a machine, each of which may be a turn of a thread.
It is fair if every thread has infinitely many turns.

`Ranking` collects what has to be known of single steps to conclude that a goal is reached.  No
step raises a rank in a well-founded order.  Some thread is enabled before the goal is reached, and
its turn lowers the rank.  A step that does not lower the rank is not a turn of an enabled thread,
and it leaves the enabled threads enabled.  Then the goal is reached on every fair schedule
(`Ranking.eventually`): an enabled thread stays so up to its next turn, unless the rank falls
before, and a rank cannot fall for ever.
-/

namespace Mealy

variable {σ ι ο : Type*}

/-- The state after the first `n` inputs of a schedule. -/
def trace (step : σ → ι → σ × List ο) (s : σ) (schedule : ℕ → ι) (n : ℕ) : σ :=
  (run step s ((List.range n).map schedule)).1

variable {step : σ → ι → σ × List ο} {s : σ} {schedule : ℕ → ι}

lemma trace_succ (n : ℕ) :
    trace step s schedule (n + 1) = (step (trace step s schedule n) (schedule n)).1 := by
  unfold trace
  rw [List.range_succ, List.map_append, List.map_singleton, run_concat_fst]

/-- What comes after the first `n` inputs is a schedule of its own. -/
lemma trace_add (n m : ℕ) :
    trace step (trace step s schedule n) (fun k => schedule (n + k)) m =
      trace step s schedule (n + m) := by
  induction m with
  | zero => rfl
  | succ m ih => rw [trace_succ, ih, ← Nat.add_assoc, trace_succ]

end Mealy

namespace Fairness

variable {σ ι ο τ ρ : Type*}

/-- Every thread has infinitely many turns. -/
def Fair (thread? : ι → Option τ) (schedule : ℕ → ι) : Prop :=
  ∀ t n, ∃ m, n ≤ m ∧ thread? (schedule m) = some t

/-- A fair schedule is fair from any point on. -/
lemma Fair.drop {thread? : ι → Option τ} {schedule : ℕ → ι} (h : Fair thread? schedule) (k : ℕ) :
    Fair thread? fun n => schedule (k + n) := by
  intro t n
  obtain ⟨m, hm, hthread⟩ := h t (k + n)
  obtain ⟨d, rfl⟩ := Nat.exists_eq_add_of_le (le_trans (Nat.le_add_right k n) hm)
  exact ⟨d, Nat.le_of_add_le_add_left hm, hthread⟩

/-- What is to be known of the steps on inputs that are `ok`, under an invariant, to conclude that
the goal is reached. -/
structure Ranking [LT ρ] (step : σ → ι → σ × List ο) (thread? : ι → Option τ) (ok : ι → Prop)
    (inv goal : σ → Prop) (rank : σ → ρ) (enabled : σ → τ → Prop) : Prop where
  /-- The invariant is kept. -/
  keeps : ∀ s i, inv s → ok i → inv (step s i).1
  /-- Somebody is enabled. -/
  exists_enabled : ∀ s, inv s → ¬ goal s → ∃ t, enabled s t
  /-- The rank falls, or it was not the turn of an enabled thread and all of them stay enabled. -/
  falls : ∀ s i, inv s → ok i → ¬ goal s → goal (step s i).1 ∨ rank (step s i).1 < rank s ∨
    (rank (step s i).1 = rank s ∧ (∀ t, thread? i = some t → ¬ enabled s t) ∧
      ∀ t, enabled s t → enabled (step s i).1 t)

namespace Ranking

variable [Preorder ρ] {step : σ → ι → σ × List ο} {thread? : ι → Option τ} {ok : ι → Prop}
  {inv goal : σ → Prop} {rank : σ → ρ} {enabled : σ → τ → Prop} {s : σ} {schedule : ℕ → ι}

lemma inv_trace (h : Ranking step thread? ok inv goal rank enabled) (hs : inv s)
    (hok : ∀ n, ok (schedule n)) (n : ℕ) : inv (Mealy.trace step s schedule n) := by
  induction n with
  | zero => exact hs
  | succ n ih =>
    rw [Mealy.trace_succ]
    exact h.keeps _ _ ih (hok n)

/-- Up to its next turn an enabled thread stays enabled, unless the goal or a lower rank is reached
before. -/
lemma stays_enabled (h : Ranking step thread? ok inv goal rank enabled) (hs : inv s)
    (hok : ∀ n, ok (schedule n)) {t : τ} (ht : enabled s t)
    (hnot : ∀ n, ¬ goal (Mealy.trace step s schedule n))
    (hleast : ∀ n, ¬ rank (Mealy.trace step s schedule n) < rank s) (n : ℕ) :
    rank (Mealy.trace step s schedule n) = rank s ∧
      enabled (Mealy.trace step s schedule n) t := by
  induction n with
  | zero => exact ⟨rfl, ht⟩
  | succ n ih =>
    obtain ⟨hrank, henabled⟩ := ih
    have hgoal := hnot (n + 1)
    have hlt := hleast (n + 1)
    rw [Mealy.trace_succ] at hgoal hlt ⊢
    rcases h.falls _ (schedule n) (h.inv_trace hs hok n) (hok n) (hnot n) with
      hreached | hfalls | ⟨hsame, -, hstays⟩
    · exact absurd hreached hgoal
    · exact absurd (hrank ▸ hfalls) hlt
    · exact ⟨hsame.trans hrank, hstays t henabled⟩

/-- Before the goal is reached, the rank falls. -/
lemma exists_lt (h : Ranking step thread? ok inv goal rank enabled) (hs : inv s)
    (hok : ∀ n, ok (schedule n)) (hfair : Fair thread? schedule)
    (hnot : ∀ n, ¬ goal (Mealy.trace step s schedule n)) :
    ∃ n, rank (Mealy.trace step s schedule n) < rank s := by
  by_contra hleast
  obtain ⟨t, ht⟩ := h.exists_enabled s hs (hnot 0)
  obtain ⟨m, -, hturn⟩ := hfair t 0
  have hkept := h.stays_enabled hs hok ht hnot (not_exists.mp hleast)
  obtain ⟨hrank, henabled⟩ := hkept m
  -- at the turn of the enabled thread the rank would have to fall
  rcases h.falls _ (schedule m) (h.inv_trace hs hok m) (hok m) (hnot m) with
    hreached | hfalls | ⟨-, hturns, -⟩
  · rw [← Mealy.trace_succ] at hreached
    exact hnot (m + 1) hreached
  · rw [← Mealy.trace_succ, hrank] at hfalls
    exact hleast ⟨m + 1, hfalls⟩
  · exact hturns t hturn henabled

/-- The goal is reached on every fair schedule. -/
theorem eventually [WellFoundedLT ρ] (h : Ranking step thread? ok inv goal rank enabled)
    (hs : inv s) (hok : ∀ n, ok (schedule n)) (hfair : Fair thread? schedule) :
    ∃ n, goal (Mealy.trace step s schedule n) := by
  by_contra hnever
  have hnot := not_exists.mp hnever
  -- a state of least rank on the way
  obtain ⟨r, ⟨n, hn⟩, hmin⟩ := WellFounded.has_min (wellFounded_lt (α := ρ))
    (Set.range fun n => rank (Mealy.trace step s schedule n)) ⟨_, 0, rfl⟩
  have hnot' : ∀ m, ¬ goal (Mealy.trace step (Mealy.trace step s schedule n)
      (fun k => schedule (n + k)) m) := by
    intro m
    rw [Mealy.trace_add]
    exact hnot (n + m)
  obtain ⟨m, hlt⟩ := h.exists_lt (h.inv_trace hs hok n) (fun k => hok (n + k)) (hfair.drop n) hnot'
  rw [Mealy.trace_add] at hlt
  exact hmin _ ⟨n + m, rfl⟩ (hn ▸ hlt)

end Ranking

end Fairness
