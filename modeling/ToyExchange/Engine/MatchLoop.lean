import ToyExchange.Engine.MatchingEngine
import Mathlib.Computability.StateTransition

/-!
# The loops of `Match`, step by step

`matchLevel` and `matchEntries` are recursive functions, so they end by construction.  Here `Match`
is a machine that may well run for ever: a state is a loop guard and the variables of the function,
and a step goes from one guard to the next, through the body of a loop or out of it.  Nothing is
assumed of the book; levels may be empty and volumes zero or negative.

No single quantity gets smaller with every step: a fill against a negative volume lets what remains
grow, a partial fill keeps the number of orders, and the outer loop may be entered for a level
without orders.  But a fill that does not pop the front order has used up what remained
(`popsFront_or_remaining_eq_zero`), so both loops are left next.  The machine therefore goes through
the book as the recursive functions do and stops with their result (`reaches_matchLevel`,
`reaches_matchEntries`).
-/

namespace ToyExchange

open StateTransition Relation

/-- The variables of `Match`, and the trades that the handler was called with so far. -/
structure MatchVars where
  remaining : ℤ
  orderIndex : OrderIndex
  trades : List Trade

/-- The guard at which `Match` stands. -/
inductive MatchState where
  /-- The guard of the outer loop. -/
  | outerGuard (book : List (ℤ × PriceLevel)) (vars : MatchVars)
  /-- The guard of the inner loop, for the level at the best price; `worse` are the others. -/
  | innerGuard (price : ℤ) (level : PriceLevel) (worse : List (ℤ × PriceLevel)) (vars : MatchVars)

namespace MatchState

/-- The entries of the book. -/
def entries : MatchState → List (ℤ × PriceLevel)
  | outerGuard book _ => book
  | innerGuard price level worse _ => (price, level) :: worse

/-- The variables. -/
def vars : MatchState → MatchVars
  | outerGuard _ vars => vars
  | innerGuard _ _ _ vars => vars

/-- From one guard to the next; `none` if `Match` returns. -/
def step (priceCrosses : ℤ → ℤ → Bool) (incoming : OrderAdd) : MatchState → Option MatchState
  | outerGuard [] _ => none
  | outerGuard ((price, level) :: worse) vars =>
    if 0 < vars.remaining then
      if priceCrosses incoming.price price then some (innerGuard price level worse vars)
      else none
    else none
  | innerGuard _ [] worse vars => some (outerGuard worse vars)
  | innerGuard price (resting :: level) worse vars =>
    if 0 < vars.remaining then
      let traded := min vars.remaining resting.volume
      let left := resting.volume - traded
      let trades := vars.trades ++ [tradeWith incoming price resting traded]
      if left = 0 then
        some (innerGuard price level worse
          ⟨vars.remaining - traded, vars.orderIndex.erase resting.orderId, trades⟩)
      else
        some (innerGuard price ({ resting with volume := left } :: level) worse
          ⟨vars.remaining - traded, vars.orderIndex, trades⟩)
    else some (outerGuard ((price, resting :: level) :: worse) vars)

end MatchState

section Loops

open MatchState

variable {priceCrosses : ℤ → ℤ → Bool} {incoming : OrderAdd} {price remaining : ℤ}
  {resting : RestingOrder} {level : PriceLevel} {worse : List (ℤ × PriceLevel)} {vars : MatchVars}

/-! ## One step -/

/-- The outer loop is entered for the best level. -/
lemma step_outer (hpos : 0 < vars.remaining) (hcross : priceCrosses incoming.price price = true) :
    step priceCrosses incoming (outerGuard ((price, level) :: worse) vars) =
      some (innerGuard price level worse vars) := by
  rw [step, if_pos hpos, if_pos hcross]

/-- The inner loop is left when nothing remains. -/
lemma step_inner_of_not_pos (hne : level ≠ []) (hpos : ¬ 0 < vars.remaining) :
    step priceCrosses incoming (innerGuard price level worse vars) =
      some (outerGuard ((price, level) :: worse) vars) := by
  obtain ⟨resting, level, rfl⟩ := List.exists_cons_of_ne_nil hne
  rw [step, if_neg hpos]

/-- A resting order that fits into what remains is filled and popped. -/
lemma step_inner_of_le (hpos : 0 < vars.remaining) (hle : resting.volume ≤ vars.remaining) :
    step priceCrosses incoming (innerGuard price (resting :: level) worse vars) =
      some (innerGuard price level worse ⟨vars.remaining - resting.volume,
        vars.orderIndex.erase resting.orderId,
        vars.trades ++ [tradeWith incoming price resting resting.volume]⟩) := by
  simp only [step, if_pos hpos, min_eq_right hle, sub_self, if_true]

/-- A resting order larger than what remains uses it up. -/
lemma step_inner_of_lt (hpos : 0 < vars.remaining) (hlt : vars.remaining < resting.volume) :
    step priceCrosses incoming (innerGuard price (resting :: level) worse vars) =
      some (innerGuard price ({ resting with volume := resting.volume - vars.remaining } :: level)
        worse ⟨0, vars.orderIndex,
          vars.trades ++ [tradeWith incoming price resting vars.remaining]⟩) := by
  have hleft : resting.volume - vars.remaining ≠ 0 := by omega
  simp only [step, if_pos hpos, min_eq_left hlt.le, sub_self, if_neg hleft]

/-- `Match` returns exactly when nothing remains, the book is empty or its best price does not
cross. -/
lemma step_outer_eq_none_iff {book : List (ℤ × PriceLevel)} :
    step priceCrosses incoming (outerGuard book vars) = none ↔
      vars.remaining ≤ 0 ∨ book = [] ∨
        ∃ best ∈ book.head?, priceCrosses incoming.price best.1 = false := by
  cases book with
  | nil => simp [step]
  | cons best worse =>
    obtain ⟨price, level⟩ := best
    by_cases hpos : 0 < vars.remaining
    · by_cases hcross : priceCrosses incoming.price price = true
      · simp [step_outer hpos hcross, hpos.not_ge, hcross]
      · simp [step, hcross]
    · simp [step, hpos, not_lt.mp hpos]

/-- A step calls the handler if the list of its trades grows. -/
def CallsHandler (s s' : MatchState) : Prop :=
  ∃ trade, s'.vars.trades = s.vars.trades ++ [trade]

/-- A step pops the front order of the best level. -/
def PopsFront (s s' : MatchState) : Prop :=
  ∃ price resting level worse, s.entries = (price, resting :: level) :: worse ∧
    s'.entries = (price, level) :: worse

/-- A call of the handler pops the front order of the best level or uses up what remains. -/
lemma popsFront_or_remaining_eq_zero {s s' : MatchState} (hstep : s' ∈ step priceCrosses incoming s)
    (hcall : CallsHandler s s') : PopsFront s s' ∨ s'.vars.remaining = 0 := by
  obtain ⟨trade, htrades⟩ := hcall
  have hvars : s'.vars ≠ s.vars := fun h => by simp [h] at htrades
  match s, hstep with
  | outerGuard ((price, level) :: worse) vars, hstep =>
    rw [step] at hstep
    split_ifs at hstep
    · cases hstep
      exact absurd rfl hvars
    · cases hstep
    · cases hstep
  | innerGuard price [] worse vars, hstep =>
    cases hstep
    exact absurd rfl hvars
  | innerGuard price (resting :: level) worse vars, hstep =>
    by_cases hpos : 0 < vars.remaining
    · rcases le_or_gt resting.volume vars.remaining with hle | hlt
      · rw [step_inner_of_le hpos hle] at hstep
        cases hstep
        exact Or.inl ⟨price, resting, level, worse, rfl, rfl⟩
      · rw [step_inner_of_lt hpos hlt] at hstep
        cases hstep
        exact Or.inr rfl
    · rw [step_inner_of_not_pos (List.cons_ne_nil _ _) hpos] at hstep
      cases hstep
      exact absurd rfl hvars

/-! ## Whole loops -/

/-- The inner loop goes through the level as `matchLevel` does. -/
lemma reaches_matchLevel {index : OrderIndex} {trades : List Trade} :
    Reaches (step priceCrosses incoming) (innerGuard price level worse ⟨remaining, index, trades⟩)
      (innerGuard price (matchLevel incoming price level remaining index).level worse
        ⟨(matchLevel incoming price level remaining index).remaining,
          (matchLevel incoming price level remaining index).orderIndex,
          trades ++ (matchLevel incoming price level remaining index).trades⟩) := by
  induction level generalizing remaining index trades with
  | nil =>
    rw [matchLevel, List.append_nil]
    exact ReflTransGen.refl
  | cons resting level ih =>
    by_cases hpos : 0 < remaining
    · rcases le_or_gt resting.volume remaining with hle | hlt
      · rw [matchLevel_cons_of_le hpos hle, List.append_cons]
        exact ReflTransGen.head (step_inner_of_le hpos hle) ih
      · rw [matchLevel_cons_of_lt hpos hlt]
        exact ReflTransGen.single (step_inner_of_lt hpos hlt)
    · rw [matchLevel_of_not_pos hpos, List.append_nil]
      exact ReflTransGen.refl

/-- What remains grows by a fill against a negative volume. -/
example (incoming : OrderAdd) (index : OrderIndex) :
    (matchLevel incoming 5 [⟨1, 1, -3⟩] 2 index).remaining = 5 := rfl

/-- The outer loop goes through the book as `matchEntries` does. -/
lemma reaches_matchEntries {book : List (ℤ × PriceLevel)} {index : OrderIndex}
    {trades : List Trade} :
    Reaches (step priceCrosses incoming) (outerGuard book ⟨remaining, index, trades⟩)
      (outerGuard (matchEntries priceCrosses incoming book remaining index).entries
        ⟨(matchEntries priceCrosses incoming book remaining index).remaining,
          (matchEntries priceCrosses incoming book remaining index).orderIndex,
          trades ++ (matchEntries priceCrosses incoming book remaining index).trades⟩) := by
  induction book generalizing remaining index trades with
  | nil =>
    rw [matchEntries, List.append_nil]
    exact ReflTransGen.refl
  | cons best worse ih =>
    obtain ⟨price, level⟩ := best
    by_cases hgo : 0 < remaining ∧ priceCrosses incoming.price price = true
    · obtain ⟨hpos, hcross⟩ := hgo
      refine ReflTransGen.head (step_outer hpos hcross) (reaches_matchLevel.trans ?_)
      by_cases hnil : (matchLevel incoming price level remaining index).level = []
      · rw [matchEntries_cons_of_nil hpos hcross hnil, hnil, ← List.append_assoc]
        exact ReflTransGen.head rfl ih
      · rw [matchEntries_cons_of_ne_nil hpos hcross hnil]
        have hdone := (matchLevel_remaining_of_ne_nil hnil).not_gt
        exact ReflTransGen.single (step_inner_of_not_pos hnil hdone)
    · rw [matchEntries_of_stop, List.append_nil]
      · exact ReflTransGen.refl
      · intro hpos best hbest
        cases hbest
        exact eq_false_of_ne_true fun hcross => hgo ⟨hpos, hcross⟩

/-- Why the outer loop was left. -/
lemma matchEntries_stops (priceCrosses : ℤ → ℤ → Bool) (incoming : OrderAdd)
    (book : List (ℤ × PriceLevel)) (remaining : ℤ) (index : OrderIndex) :
    let m := matchEntries priceCrosses incoming book remaining index
    m.remaining ≤ 0 ∨ m.entries = [] ∨
      ∃ best ∈ m.entries.head?, priceCrosses incoming.price best.1 = false := by
  induction book generalizing remaining index with
  | nil => exact Or.inr (Or.inl rfl)
  | cons best worse ih =>
    obtain ⟨price, level⟩ := best
    dsimp only
    by_cases hpos : 0 < remaining
    · by_cases hcross : priceCrosses incoming.price price = true
      · by_cases hnil : (matchLevel incoming price level remaining index).level = []
        · rw [matchEntries_cons_of_nil hpos hcross hnil]
          exact ih _ _
        · rw [matchEntries_cons_of_ne_nil hpos hcross hnil]
          exact Or.inl (matchLevel_remaining_of_ne_nil hnil)
      · have hfalse := eq_false_of_ne_true hcross
        rw [matchEntries, if_pos hpos, if_neg hcross]
        exact Or.inr (Or.inr ⟨(price, level), rfl, hfalse⟩)
    · rw [matchEntries, if_neg hpos]
      exact Or.inl (not_lt.mp hpos)

end Loops

namespace MatchingEngine

/-- **`Match` terminates on every book**, whatever the volumes in it, and returns what `matchBook`
says.  Every call of the trade handler goes with the end of the front order of the best level or
with the end of what remained.  On return nothing remains, the book is empty or its best price does
not cross. -/
theorem match_terminates {side : Side} (book : Book side) (index : OrderIndex)
    (incoming : OrderAdd) (remaining : ℤ) (priceCrosses : ℤ → ℤ → Bool) :
    let step := MatchState.step priceCrosses incoming
    let start := MatchState.outerGuard book.entries ⟨remaining, index, []⟩
    let (book', index', remaining', trades) :=
      matchBook book index incoming remaining priceCrosses
    MatchState.outerGuard book'.entries ⟨remaining', index', trades⟩ ∈ eval step start ∧
    (∀ s, Reaches step start s → ∀ s' ∈ step s, CallsHandler s s' →
      PopsFront s s' ∨ s'.vars.remaining = 0) ∧
    (remaining' ≤ 0 ∨ book'.entries = [] ∨
      ∃ best ∈ book'.entries.head?, priceCrosses incoming.price best.1 = false) := by
  have hstops := matchEntries_stops priceCrosses incoming book.entries remaining index
  refine ⟨mem_eval.mpr ⟨reaches_matchEntries, step_outer_eq_none_iff.mpr hstops⟩, ?_, hstops⟩
  intro s _ s' hstep hcall
  exact popsFront_or_remaining_eq_zero hstep hcall

end MatchingEngine

end ToyExchange
