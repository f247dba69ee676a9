import Mathlib.Algebra.Order.Group.Defs
import Mathlib.Algebra.Order.Group.Unbundled.Basic
import Mathlib.Algebra.Order.BigOperators.Group.List
import Mathlib.Data.List.Infix
import Mathlib.Tactic.Abel

/-!
# Draining a queue

Elements of a queue hold amounts of some ordered group.  `drain` meets a demand from the front
of the queue: it takes elements whole while they fit into what is still demanded, reduces the
first one that does not fit, and stops when the demand is met or at the first element that may
not be taken.

The record `Drained` says what is left of the queue and of the demand, what was taken from
which element, and which elements were used up.  The results are the two conservation laws
(`sum_taken_add_left` on the side of the demand, `total_rest_add_takenFrom` on the side of the
queue), the shape of what is left (`map_spent_append_rest`), the reasons for stopping
(`not_ok_head_of_left_pos`), and that a demand may be met in two parts (`drain_add`).
-/

/-- How the elements of a queue hold amounts and give up parts of them. -/
structure Stock (α G : Type*) [Sub G] where
  /-- The amount an element holds. -/
  amount : α → G
  /-- The element after part of its amount was taken. -/
  reduce : α → G → α
  /-- Taking a part leaves the difference. -/
  amount_reduce : ∀ a g, amount (reduce a g) = amount a - g

/-- The outcome of meeting a demand from a queue. -/
structure Drained (α G : Type*) where
  /-- The queue afterwards. -/
  rest : List α
  /-- The part of the demand that was not met. -/
  left : G
  /-- The elements taken from, as they stood, with the amounts taken, in order. -/
  taken : List (α × G)
  /-- The elements that were used up. -/
  spent : List α

namespace Stock

section Totals

variable {α G : Type*} [AddCommGroup G] {S : Stock α G}

/-- The amounts of the elements of one kind. -/
def total (S : Stock α G) (p : α → Bool) (l : List α) : G := ((l.filter p).map S.amount).sum

@[simp] lemma total_nil (p : α → Bool) : S.total p [] = 0 := rfl

lemma total_cons (p : α → Bool) (a : α) (l : List α) :
    S.total p (a :: l) = (if p a then S.amount a else 0) + S.total p l := by
  by_cases h : p a <;> simp [total, h]

lemma total_append (p : α → Bool) (l₁ l₂ : List α) :
    S.total p (l₁ ++ l₂) = S.total p l₁ + S.total p l₂ := by
  simp [total]

lemma total_perm {l₁ l₂ : List α} (h : l₁.Perm l₂) (p : α → Bool) : S.total p l₁ = S.total p l₂ :=
  ((h.filter p).map S.amount).sum_eq

/-- The amounts taken from the elements of one kind. -/
def takenFrom (p : α → Bool) (t : List (α × G)) : G :=
  ((t.filter fun x => p x.1).map Prod.snd).sum

@[simp] lemma takenFrom_nil (p : α → Bool) : takenFrom p ([] : List (α × G)) = 0 := rfl

lemma takenFrom_cons (p : α → Bool) (x : α × G) (t : List (α × G)) :
    takenFrom p (x :: t) = (if p x.1 then x.2 else 0) + takenFrom p t := by
  by_cases h : p x.1 <;> simp [takenFrom, h]

end Totals

variable {α β G : Type*} [AddCommGroup G] [LinearOrder G]
variable (S : Stock α G) (ok : α → Prop) [DecidablePred ok]

/-- Meet the demand `g` from the front of a queue, using only elements that are `ok`. -/
def drain : List α → G → Drained α G
  | [], g => ⟨[], g, [], []⟩
  | a :: l, g =>
    if 0 < g ∧ ok a then
      if S.amount a ≤ g then
        let d := drain l (g - S.amount a)
        ⟨d.rest, d.left, (a, S.amount a) :: d.taken, a :: d.spent⟩
      else ⟨S.reduce a g :: l, 0, [(a, g)], []⟩
    else ⟨a :: l, g, [], []⟩

variable {S ok}

@[simp] lemma drain_nil (g : G) : S.drain ok [] g = ⟨[], g, [], []⟩ := rfl

/-- The front element fits into the demand and is used up. -/
lemma drain_cons_of_le {a : α} {l : List α} {g : G} (hg : 0 < g) (ha : ok a)
    (hle : S.amount a ≤ g) :
    S.drain ok (a :: l) g =
      ⟨(S.drain ok l (g - S.amount a)).rest, (S.drain ok l (g - S.amount a)).left,
        (a, S.amount a) :: (S.drain ok l (g - S.amount a)).taken,
        a :: (S.drain ok l (g - S.amount a)).spent⟩ := by
  rw [drain, if_pos ⟨hg, ha⟩, if_pos hle]

/-- The front element holds more than the demand, which is then met. -/
lemma drain_cons_of_lt {a : α} {l : List α} {g : G} (hg : 0 < g) (ha : ok a)
    (hlt : g < S.amount a) :
    S.drain ok (a :: l) g = ⟨S.reduce a g :: l, 0, [(a, g)], []⟩ := by
  rw [drain, if_pos ⟨hg, ha⟩, if_neg hlt.not_ge]

/-- Nothing is taken when nothing is demanded or the front element may not be taken. -/
lemma drain_of_stop {l : List α} {g : G} (h : 0 < g → ∀ a ∈ l.head?, ¬ ok a) :
    S.drain ok l g = ⟨l, g, [], []⟩ := by
  cases l with
  | nil => rfl
  | cons a l => rw [drain, if_neg fun hga => h hga.1 a rfl hga.2]

/-- The cases of a drain, following the front of the queue: it is stopped, the front element is
used up, or the front element is reduced. -/
theorem drain_induction (S : Stock α G) (ok : α → Prop) [DecidablePred ok] {P : List α → G → Prop}
    (stop : ∀ l g, (0 < g → ∀ a ∈ l.head?, ¬ ok a) → P l g)
    (use : ∀ a l g, 0 < g → ok a → S.amount a ≤ g → P l (g - S.amount a) → P (a :: l) g)
    (part : ∀ a l g, 0 < g → ok a → g < S.amount a → P (a :: l) g) (l : List α) (g : G) :
    P l g := by
  induction l generalizing g with
  | nil => exact stop [] g (by simp)
  | cons a l ih =>
    by_cases h : 0 < g ∧ ok a
    · rcases le_or_gt (S.amount a) g with hle | hlt
      · exact use a l g h.1 h.2 hle (ih _)
      · exact part a l g h.1 h.2 hlt
    · refine stop (a :: l) g fun hg b hb hok => h ⟨hg, ?_⟩
      rw [List.head?_cons, Option.mem_some_iff] at hb
      exact hb ▸ hok

/-! ## Conservation -/

/-- What was taken and what was not met make up the demand. -/
theorem sum_taken_add_left (l : List α) (g : G) :
    ((S.drain ok l g).taken.map Prod.snd).sum + (S.drain ok l g).left = g := by
  induction l, g using drain_induction S ok with
  | stop l g h => rw [drain_of_stop h]; simp
  | use a l g hg ha hle ih =>
    rw [drain_cons_of_le hg ha hle, List.map_cons, List.sum_cons, add_assoc, ih]
    abel
  | part a l g hg ha hlt => rw [drain_cons_of_lt hg ha hlt]; simp

/-- What the elements of a kind still hold and what was taken from them make up what they
held. -/
theorem total_rest_add_takenFrom {p : α → Bool} (hp : ∀ a g, p (S.reduce a g) = p a)
    (l : List α) (g : G) :
    S.total p (S.drain ok l g).rest + takenFrom p (S.drain ok l g).taken = S.total p l := by
  induction l, g using drain_induction S ok with
  | stop l g h => rw [drain_of_stop h]; simp
  | use a l g hg ha hle ih =>
    rw [drain_cons_of_le hg ha hle, takenFrom_cons, total_cons, ← ih]
    abel
  | part a l g hg ha hlt =>
    rw [drain_cons_of_lt hg ha hlt, total_cons, total_cons, takenFrom_cons, hp, S.amount_reduce]
    by_cases h : p a <;> simp [h]
    abel

/-! ## What is left -/

/-- The elements used up, followed by the queue afterwards, are the queue before, as far as a
reduction can be seen. -/
theorem map_spent_append_rest {f : α → β} (hf : ∀ a g, f (S.reduce a g) = f a) (l : List α)
    (g : G) :
    (S.drain ok l g).spent.map f ++ (S.drain ok l g).rest.map f = l.map f := by
  induction l, g using drain_induction S ok with
  | stop l g h => rw [drain_of_stop h]; rfl
  | use a l g hg ha hle ih =>
    rw [drain_cons_of_le hg ha hle, List.map_cons, List.cons_append, ih, List.map_cons]
  | part a l g hg ha hlt => rw [drain_cons_of_lt hg ha hlt]; simp [hf]

/-- An unmet demand stops at an element that may not be taken, or at the end of the queue. -/
theorem not_ok_head_of_left_pos {l : List α} {g : G} (h : 0 < (S.drain ok l g).left) :
    ∀ a ∈ (S.drain ok l g).rest.head?, ¬ ok a := by
  induction l, g using drain_induction S ok with
  | stop l g hstop => rw [drain_of_stop hstop] at h ⊢; exact hstop h
  | use a l g hg ha hle ih => rw [drain_cons_of_le hg ha hle] at h ⊢; exact ih h
  | part a l g hg ha hlt => rw [drain_cons_of_lt hg ha hlt] at h; exact absurd h (lt_irrefl 0)

/-- A property of the elements of the queue that a reduction to a smaller positive amount keeps
holds of the elements left. -/
theorem forall_rest {P : α → Prop} {l : List α} {g : G} (hl : ∀ a ∈ l, P a)
    (hreduce : ∀ a g, P a → 0 < g → g < S.amount a → P (S.reduce a g)) :
    ∀ a ∈ (S.drain ok l g).rest, P a := by
  induction l, g using drain_induction S ok with
  | stop l g h => rw [drain_of_stop h]; exact hl
  | use a l g hg ha hle ih =>
    rw [drain_cons_of_le hg ha hle]
    exact ih fun b hb => hl b (List.mem_cons_of_mem _ hb)
  | part a l g hg ha hlt =>
    rw [drain_cons_of_lt hg ha hlt]
    obtain ⟨hhead, htail⟩ := List.forall_mem_cons.mp hl
    exact List.forall_mem_cons.mpr ⟨hreduce a g hhead hg hlt, htail⟩

/-- Everything taken is taken from an element of the queue that may be taken. -/
theorem taken_mem {l : List α} {g : G} {x : α × G} (hx : x ∈ (S.drain ok l g).taken) :
    x.1 ∈ l ∧ ok x.1 := by
  induction l, g using drain_induction S ok with
  | stop l g h => rw [drain_of_stop h] at hx; simp at hx
  | use a l g hg ha hle ih =>
    rw [drain_cons_of_le hg ha hle] at hx
    rcases List.mem_cons.mp hx with rfl | hx
    · exact ⟨List.mem_cons_self .., ha⟩
    · exact ⟨List.mem_cons_of_mem _ (ih hx).1, (ih hx).2⟩
  | part a l g hg ha hlt =>
    rw [drain_cons_of_lt hg ha hlt, List.mem_singleton] at hx
    subst hx
    exact ⟨List.mem_cons_self .., ha⟩

/-- Elements are taken from the front, in their order. -/
theorem taken_prefix (l : List α) (g : G) : (S.drain ok l g).taken.map Prod.fst <+: l := by
  induction l, g using drain_induction S ok with
  | stop l g h =>
    rw [drain_of_stop h]
    exact List.nil_prefix
  | use a l g hg ha hle ih =>
    rw [drain_cons_of_le hg ha hle]
    exact (List.prefix_cons_inj a).mpr ih
  | part a l g hg ha hlt =>
    rw [drain_cons_of_lt hg ha hlt]
    exact ⟨l, rfl⟩

/-- From a queue of positive amounts only positive amounts are taken. -/
theorem taken_pos {l : List α} {g : G} (hl : ∀ a ∈ l, 0 < S.amount a) {x : α × G}
    (hx : x ∈ (S.drain ok l g).taken) : 0 < x.2 := by
  induction l, g using drain_induction S ok with
  | stop l g h =>
    rw [drain_of_stop h] at hx
    cases hx
  | use a l g hg ha hle ih =>
    obtain ⟨hhead, htail⟩ := List.forall_mem_cons.mp hl
    rw [drain_cons_of_le hg ha hle] at hx
    rcases List.mem_cons.mp hx with rfl | hx
    · exact hhead
    · exact ih htail hx
  | part a l g hg ha hlt =>
    rw [drain_cons_of_lt hg ha hlt, List.mem_singleton] at hx
    subst hx
    exact hg

/-- No more is taken from an element than it holds. -/
theorem taken_le {l : List α} {g : G} {x : α × G} (hx : x ∈ (S.drain ok l g).taken) :
    x.2 ≤ S.amount x.1 := by
  induction l, g using drain_induction S ok with
  | stop l g h =>
    rw [drain_of_stop h] at hx
    cases hx
  | use a l g hg ha hle ih =>
    rw [drain_cons_of_le hg ha hle] at hx
    rcases List.mem_cons.mp hx with rfl | hx
    · exact le_rfl
    · exact ih hx
  | part a l g hg ha hlt =>
    rw [drain_cons_of_lt hg ha hlt, List.mem_singleton] at hx
    subst hx
    exact hlt.le

/-- A queue of positive amounts leaves no more than was asked for. -/
theorem left_le [IsOrderedAddMonoid G] {l : List α} {g : G} (hl : ∀ a ∈ l, 0 < S.amount a) :
    (S.drain ok l g).left ≤ g := by
  induction l, g using drain_induction S ok with
  | stop l g h => rw [drain_of_stop h]
  | use a l g hg ha hle ih =>
    obtain ⟨hhead, htail⟩ := List.forall_mem_cons.mp hl
    rw [drain_cons_of_le hg ha hle]
    exact (ih htail).trans (sub_le_self g hhead.le)
  | part a l g hg ha hlt =>
    rw [drain_cons_of_lt hg ha hlt]
    exact hg.le

/-- A demand that was not negative is not overdrawn. -/
theorem left_nonneg [IsOrderedAddMonoid G] {l : List α} {g : G} (hg : 0 ≤ g) :
    0 ≤ (S.drain ok l g).left := by
  induction l, g using drain_induction S ok with
  | stop l g h => rw [drain_of_stop h]; exact hg
  | use a l g hpos ha hle ih => rw [drain_cons_of_le hpos ha hle]; exact ih (sub_nonneg.mpr hle)
  | part a l g hpos ha hlt => rw [drain_cons_of_lt hpos ha hlt]

/-! ## Meeting a demand in two parts -/

/-- A demand may be met in two parts: the queue is the same afterwards, as much stays unmet, and as
much is taken from the elements of each kind. -/
theorem drain_add [IsOrderedAddMonoid G] (hok : ∀ a g, ok (S.reduce a g) ↔ ok a)
    (hreduce : ∀ a g g', S.reduce (S.reduce a g) g' = S.reduce a (g + g')) {p : α → Bool}
    (hp : ∀ a g, p (S.reduce a g) = p a) (l : List α) {g g' : G} (hg : 0 ≤ g) (hg' : 0 < g') :
    (S.drain ok l (g + g')).rest = (S.drain ok (S.drain ok l g).rest g').rest ∧
      (S.drain ok l (g + g')).left =
        (S.drain ok l g).left + (S.drain ok (S.drain ok l g).rest g').left ∧
      takenFrom p (S.drain ok l (g + g')).taken =
        takenFrom p (S.drain ok l g).taken +
          takenFrom p (S.drain ok (S.drain ok l g).rest g').taken := by
  induction l, g using drain_induction S ok with
  | stop l g hstop =>
    rw [drain_of_stop hstop]
    rcases hg.eq_or_lt with rfl | hpos
    · simp
    · rw [drain_of_stop (g := g + g') fun _ => hstop hpos, drain_of_stop fun _ => hstop hpos]
      simp
  | use a l g hpos ha hle ih =>
    have hwhole : S.amount a ≤ g + g' := hle.trans (le_add_of_nonneg_right hg'.le)
    have hrest : g + g' - S.amount a = g - S.amount a + g' := by abel
    obtain ⟨ihrest, ihleft, ihtaken⟩ := ih (sub_nonneg.mpr hle)
    rw [drain_cons_of_le (add_pos hpos hg') ha hwhole, drain_cons_of_le hpos ha hle, hrest]
    refine ⟨ihrest, ihleft, ?_⟩
    rw [takenFrom_cons, takenFrom_cons, ihtaken, add_assoc]
  | part a l g hpos ha hlt =>
    rw [drain_cons_of_lt hpos ha hlt]
    have hreduced : S.amount (S.reduce a g) = S.amount a - g := S.amount_reduce a g
    rcases le_or_gt (S.amount a) (g + g') with hle | hmore
    · -- the second part uses the element up
      have hle' : S.amount (S.reduce a g) ≤ g' := by
        rw [hreduced]
        exact sub_le_iff_le_add'.mpr hle
      have hrest : g' - S.amount (S.reduce a g) = g + g' - S.amount a := by
        rw [hreduced]
        abel
      rw [drain_cons_of_le (add_pos hpos hg') ha hle,
        drain_cons_of_le hg' ((hok a g).mpr ha) hle', hrest]
      refine ⟨rfl, (zero_add _).symm, ?_⟩
      rw [takenFrom_cons, takenFrom_cons, takenFrom_cons, takenFrom_nil, hp, hreduced]
      by_cases h : p a <;> simp [h, ← add_assoc]
    · have hlt' : g' < S.amount (S.reduce a g) := by
        rw [hreduced]
        exact lt_sub_iff_add_lt'.mpr hmore
      rw [drain_cons_of_lt (add_pos hpos hg') ha hmore,
        drain_cons_of_lt hg' ((hok a g).mpr ha) hlt', hreduce]
      refine ⟨rfl, (zero_add _).symm, ?_⟩
      rw [takenFrom_cons, takenFrom_cons, takenFrom_cons, takenFrom_nil, hp]
      by_cases h : p a <;> simp [h]

/-! ## Queues whose takeable elements come first -/

/-- If the elements that may be taken come first, an unmet demand has used up all of them. -/
theorem rest_eq_filter_of_left_pos {l : List α} {g : G}
    (hmono : l.Pairwise fun a b => ok b → ok a) (h : 0 < (S.drain ok l g).left) :
    (S.drain ok l g).rest = l.filter fun a => ¬ ok a := by
  induction l, g using drain_induction S ok with
  | stop l g hstop =>
    rw [drain_of_stop hstop] at h ⊢
    symm
    rw [List.filter_eq_self]
    intro a ha
    rw [decide_eq_true_iff]
    intro hok
    cases l with
    | nil => simp at ha
    | cons b l =>
      have hb : ¬ ok b := hstop h b rfl
      rcases List.mem_cons.mp ha with rfl | ha
      · exact hb hok
      · exact hb ((List.pairwise_cons.mp hmono).1 a ha hok)
  | use a l g hg ha hle ih =>
    rw [drain_cons_of_le hg ha hle] at h ⊢
    simpa [ha] using ih (List.pairwise_cons.mp hmono).2 h
  | part a l g hg ha hlt => rw [drain_cons_of_lt hg ha hlt] at h; exact absurd h (lt_irrefl 0)

/-- Positive amounts make a total that is not negative. -/
lemma total_nonneg [IsOrderedAddMonoid G] {l : List α} (hl : ∀ a ∈ l, 0 < S.amount a)
    (p : α → Bool) : 0 ≤ S.total p l := by
  refine List.sum_nonneg fun x hx => ?_
  obtain ⟨a, ha, rfl⟩ := List.mem_map.mp hx
  exact (hl a (List.mem_of_mem_filter ha)).le

/-- Positive amounts make a total that vanishes only where there is no element of the kind. -/
lemma total_eq_zero_iff [IsOrderedAddMonoid G] {l : List α} (hl : ∀ a ∈ l, 0 < S.amount a)
    (p : α → Bool) : S.total p l = 0 ↔ ∀ a ∈ l, p a = false := by
  induction l with
  | nil => simp
  | cons a l ih =>
    obtain ⟨hhead, htail⟩ := List.forall_mem_cons.mp hl
    have hrest := total_nonneg htail p
    rw [total_cons, List.forall_mem_cons, ← ih htail]
    by_cases h : p a
    · rw [if_pos h]
      refine iff_of_false (add_pos_of_pos_of_nonneg hhead hrest).ne' fun hp => ?_
      exact absurd h (Bool.eq_false_iff.mp hp.1)
    · rw [if_neg h, zero_add]
      exact (and_iff_right (Bool.eq_false_iff.mpr h)).symm

/-- If the elements that may be taken come first and hold positive amounts, a demand stays unmet
exactly when it exceeds what they hold. -/
theorem left_pos_iff [IsOrderedAddMonoid G] {l : List α} {g : G}
    (hmono : l.Pairwise fun a b => ok b → ok a) (hl : ∀ a ∈ l, 0 < S.amount a) :
    0 < (S.drain ok l g).left ↔ S.total (fun a => ok a) l < g := by
  induction l, g using drain_induction S ok with
  | stop l g hstop =>
    rw [drain_of_stop hstop]
    by_cases hg : 0 < g
    · -- the front element may not be taken, hence none may
      have hnone : l.filter (fun a => decide (ok a)) = [] := by
        have hleft : 0 < (S.drain ok l g).left := by rw [drain_of_stop hstop]; exact hg
        have hrest : l = l.filter fun a => ¬ ok a := by
          have h := rest_eq_filter_of_left_pos hmono hleft
          rwa [drain_of_stop hstop] at h
        rw [List.filter_eq_nil_iff]
        intro a ha hok
        rw [hrest, List.mem_filter] at ha
        exact (of_decide_eq_true ha.2) (of_decide_eq_true hok)
      simp [total, hnone, hg]
    · have hnonneg := total_nonneg hl fun a => decide (ok a)
      exact ⟨fun h => absurd h hg, fun h => absurd (lt_of_le_of_lt hnonneg h) hg⟩
  | use a l g hg ha hle ih =>
    obtain ⟨-, htail⟩ := List.forall_mem_cons.mp hl
    rw [drain_cons_of_le hg ha hle, total_cons, ih (List.pairwise_cons.mp hmono).2 htail]
    simp only [decide_eq_true_eq, if_pos ha]
    exact lt_sub_iff_add_lt'
  | part a l g hg ha hlt =>
    obtain ⟨-, htail⟩ := List.forall_mem_cons.mp hl
    have hnonneg := total_nonneg htail fun a => decide (ok a)
    rw [drain_cons_of_lt hg ha hlt, total_cons]
    simp only [decide_eq_true_eq, if_pos ha]
    refine ⟨fun h => absurd h (lt_irrefl 0), fun h => absurd h (not_lt.mpr ?_)⟩
    exact hlt.le.trans (le_add_of_nonneg_right hnonneg)

end Stock
