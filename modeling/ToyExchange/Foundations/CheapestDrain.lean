import ToyExchange.Foundations.Drain
import Mathlib.Algebra.Order.Ring.Defs
import Mathlib.Tactic.Linarith

/-!
# Draining from the cheapest end

If the elements of a queue have costs per unit and the cheapest come first, then draining the queue
from its front is the cheapest way to take as much as it takes: no other way of taking the same
total out of the elements, whether they may be taken or not, costs less (`cost_taken_le`).  And it
takes as much as it can: all that is demanded, or all that may be taken (`sum_taken_eq_min`).

The argument follows the drain.  What another way does not take from the front it must take from
elements that cost at least as much, so the induction carries an excess `d` of the other way, of
which every unit costs at least `m`.
-/

namespace Stock

variable {α R : Type*} [CommRing R] [LinearOrder R] [IsStrictOrderedRing R]
variable {S : Stock α R} {ok : α → Prop} [DecidablePred ok] {cost : α → R}

/-- What taking these amounts out of the elements costs. -/
def costOf (cost : α → R) (l : List α) (amounts : List R) : R :=
  (List.zipWith (fun a x => cost a * x) l amounts).sum

/-- The amounts are parts of the elements. -/
def Parts (S : Stock α R) (l : List α) (amounts : List R) : Prop :=
  List.Forall₂ (fun a x => 0 ≤ x ∧ x ≤ S.amount a) l amounts

/-- If no unit costs less than `m`, then so many units cost at least so many times `m`. -/
lemma mul_sum_le_costOf {m : R} {l : List α} {amounts : List R} (h : S.Parts l amounts)
    (hm : ∀ a ∈ l, m ≤ cost a) : m * amounts.sum ≤ costOf cost l amounts := by
  induction h with
  | nil => simp [costOf]
  | @cons a x l amounts hx _ ih =>
    obtain ⟨hhead, htail⟩ := List.forall_mem_cons.mp hm
    have hunit : m * x ≤ cost a * x := mul_le_mul_of_nonneg_right hhead hx.1
    have hrest := ih htail
    unfold costOf at hrest ⊢
    rw [List.zipWith_cons_cons, List.sum_cons, List.sum_cons, mul_add]
    exact add_le_add hunit hrest

/-- Another way that takes `d` more than the drain costs at least `d` times `m` more. -/
lemma cost_taken_add_le {l : List α} {g : R} (hsorted : l.Pairwise fun a b => cost a ≤ cost b)
    {m : R} (hm : ∀ a ∈ l, m ≤ cost a) {amounts : List R} (hparts : S.Parts l amounts) {d : R}
    (hd : 0 ≤ d) (hsum : amounts.sum = ((S.drain ok l g).taken.map Prod.snd).sum + d) :
    ((S.drain ok l g).taken.map fun x => cost x.1 * x.2).sum + m * d ≤ costOf cost l amounts := by
  induction l, g using drain_induction S ok generalizing m amounts d with
  | stop l g hstop =>
    rw [drain_of_stop hstop] at hsum ⊢
    have hbound := mul_sum_le_costOf hparts hm
    rw [hsum] at hbound
    simpa using hbound
  | use a l g hg ha hle ih =>
    rw [drain_cons_of_le hg ha hle] at hsum ⊢
    obtain ⟨hfirst, hsorted⟩ := List.pairwise_cons.mp hsorted
    rcases hparts with _ | @⟨_, x, _, amounts, hx, hparts⟩
    -- what is not taken from the front is taken from elements that cost at least as much
    have hrest := ih hsorted hfirst hparts (d := S.amount a - x + d)
      (add_nonneg (sub_nonneg.mpr hx.2) hd) (by
        simp only [List.sum_cons, List.map_cons] at hsum
        linarith)
    have hexcess : m * d ≤ cost a * d :=
      mul_le_mul_of_nonneg_right (hm a List.mem_cons_self) hd
    unfold costOf at hrest ⊢
    simp only [List.map_cons, List.sum_cons, List.zipWith_cons_cons]
    linarith
  | part a l g hg ha hlt =>
    rw [drain_cons_of_lt hg ha hlt] at hsum ⊢
    have hfirst : ∀ b ∈ a :: l, cost a ≤ cost b :=
      List.forall_mem_cons.mpr ⟨le_rfl, (List.pairwise_cons.mp hsorted).1⟩
    have hbound := mul_sum_le_costOf hparts hfirst
    have hexcess : m * d ≤ cost a * d :=
      mul_le_mul_of_nonneg_right (hm a List.mem_cons_self) hd
    rw [hsum] at hbound
    simp only [List.map_cons, List.map_nil, List.sum_cons, List.sum_nil, add_zero] at hbound ⊢
    linarith

/-- **Draining a queue with the cheapest elements first is cheapest.**  No other parts of the
elements with the same total cost less. -/
theorem cost_taken_le {l : List α} {g : R} (hsorted : l.Pairwise fun a b => cost a ≤ cost b)
    {amounts : List R} (hparts : S.Parts l amounts)
    (hsum : amounts.sum = ((S.drain ok l g).taken.map Prod.snd).sum) :
    ((S.drain ok l g).taken.map fun x => cost x.1 * x.2).sum ≤ costOf cost l amounts := by
  have hlow : ∃ m, ∀ a ∈ l, m ≤ cost a := by
    cases l with
    | nil => exact ⟨0, by simp⟩
    | cons a l =>
      exact ⟨cost a, List.forall_mem_cons.mpr ⟨le_rfl, (List.pairwise_cons.mp hsorted).1⟩⟩
  obtain ⟨m, hm⟩ := hlow
  have hle := cost_taken_add_le hsorted hm hparts le_rfl (hsum.trans (add_zero _).symm)
  rwa [mul_zero, add_zero] at hle

omit [LinearOrder R] [IsStrictOrderedRing R] in
/-- If the elements that may be taken come first and the front one may not, then none may. -/
lemma total_eq_zero_of_stop {l : List α} (hmono : l.Pairwise fun a b => ok b → ok a)
    (hstop : ∀ a ∈ l.head?, ¬ ok a) : S.total (fun a => ok a) l = 0 := by
  cases l with
  | nil => rfl
  | cons a l =>
    have hfront : ¬ ok a := hstop a rfl
    have hnone : ∀ b ∈ a :: l, ¬ ok b := by
      refine List.forall_mem_cons.mpr ⟨hfront, fun b hb hok => hfront ?_⟩
      exact (List.pairwise_cons.mp hmono).1 b hb hok
    unfold total
    rw [List.filter_eq_nil_iff.mpr fun b hb => by simpa using hnone b hb]
    rfl

/-- If the elements that may be taken come first and hold positive amounts, then a drain takes all
that is demanded or all that may be taken. -/
theorem sum_taken_eq_min {l : List α} {g : R} (hmono : l.Pairwise fun a b => ok b → ok a)
    (hl : ∀ a ∈ l, 0 < S.amount a) :
    ((S.drain ok l g).taken.map Prod.snd).sum = min (max g 0) (S.total (fun a => ok a) l) := by
  induction l, g using drain_induction S ok with
  | stop l g hstop =>
    rw [drain_of_stop hstop, List.map_nil, List.sum_nil]
    rcases le_or_gt g 0 with hg | hg
    · rw [max_eq_right hg, min_eq_left (total_nonneg hl _)]
    · rw [total_eq_zero_of_stop hmono (hstop hg), min_eq_right (le_max_right g 0)]
  | use a l g hg ha hle ih =>
    have hrest := ih (List.pairwise_cons.mp hmono).2 (List.forall_mem_cons.mp hl).2
    rw [max_eq_left (sub_nonneg.mpr hle)] at hrest
    rw [drain_cons_of_le hg ha hle, List.map_cons, List.sum_cons, hrest, max_eq_left hg.le,
      total_cons, if_pos (decide_eq_true ha), ← min_add_add_left, add_sub_cancel]
  | part a l g hg ha hlt =>
    have hrest := total_nonneg (List.forall_mem_cons.mp hl).2 fun a => decide (ok a)
    rw [drain_cons_of_lt hg ha hlt, max_eq_left hg.le, total_cons, if_pos (decide_eq_true ha),
      min_eq_left (by linarith)]
    simp

end Stock
