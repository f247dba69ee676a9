import Mathlib.Data.List.Sort
import Mathlib.Order.RelClasses

/-!
# Stable sorting by a key

`stableSort lt key l` sorts a list by a key, best key first; elements with the same key keep
their order.  `best` finds the first of the elements with the best key.

A structure that keeps a queue sorted and one that keeps it in order of arrival do the same
things to it at different places: what arrives is inserted behind its equals
(`stableSort_concat`), selecting elements and changing them without changing their keys commute
with sorting (`filter_stableSort`, `map_stableSort`), and the best element is the front of the
sorted list (`head?_stableSort`).
-/

namespace StableSort

/-! ## Insertion -/

section Insertion

variable {α : Type*} {s : α → α → Prop} [DecidableRel s] {a : α}

/-- Inserting an element that comes before nothing in `l₁` into `l₁ ++ l₂` inserts it
into `l₂`. -/
lemma orderedInsert_append_of_forall_not {l₁ : List α} (h : ∀ b ∈ l₁, ¬ s a b) (l₂ : List α) :
    (l₁ ++ l₂).orderedInsert s a = l₁ ++ l₂.orderedInsert s a := by
  induction l₁ with
  | nil => rfl
  | cons b l₁ ih =>
    have hb : ¬ s a b := h b (List.mem_cons_self ..)
    rw [List.cons_append, List.orderedInsert_of_not_le _ _ hb,
      ih fun c hc => h c (List.mem_cons_of_mem _ hc), List.cons_append]

/-- Inserting an element that comes before everything puts it first. -/
lemma orderedInsert_of_forall {l : List α} (h : ∀ b ∈ l, s a b) : l.orderedInsert s a = a :: l := by
  cases l with
  | nil => rfl
  | cons b l => exact List.orderedInsert_cons_of_le _ _ (h b (List.mem_cons_self ..))

/-- An inserted element that is filtered out makes no difference. -/
lemma filter_orderedInsert_of_neg {p : α → Bool} (hp : ¬ p a) (l : List α) :
    (l.orderedInsert s a).filter p = l.filter p := by
  rw [List.orderedInsert_eq_take_drop, List.filter_append, List.filter_cons_of_neg hp,
    ← List.filter_append, List.takeWhile_append_dropWhile]

end Insertion

/-! ## Sorting -/

variable {α κ : Type*} (lt : κ → κ → Prop) [DecidableRel lt] (key : α → κ)

/-- The key of `a` is at least as good as that of `b`. -/
def AtLeast (a b : α) : Prop := ¬ lt (key b) (key a)

/-- The key of `a` is strictly better than that of `b`. -/
def Before (a b : α) : Prop := lt (key a) (key b)

instance : DecidableRel (AtLeast lt key) := fun a b =>
  inferInstanceAs (Decidable (¬ lt (key b) (key a)))

instance : DecidableRel (Before lt key) := fun a b =>
  inferInstanceAs (Decidable (lt (key a) (key b)))

/-- Sort by the key; elements with the same key keep their order. -/
def stableSort (l : List α) : List α := l.insertionSort (AtLeast lt key)

/-- The first of the elements with the best key. -/
def best : List α → Option α
  | [] => none
  | a :: l =>
    match best l with
    | none => some a
    | some b => if lt (key b) (key a) then some b else some a

variable {lt key}

@[simp] lemma stableSort_nil : stableSort lt key [] = [] := rfl

lemma stableSort_cons (a : α) (l : List α) :
    stableSort lt key (a :: l) =
      (stableSort lt key l).orderedInsert (AtLeast lt key) a := rfl

lemma stableSort_perm (l : List α) : (stableSort lt key l).Perm l := List.perm_insertionSort _ l

/-- The front of the sorted list is the best element. -/
theorem head?_stableSort (l : List α) : (stableSort lt key l).head? = best lt key l := by
  induction l with
  | nil => rfl
  | cons a l ih =>
    rw [stableSort_cons, best, ← ih]
    cases stableSort lt key l with
    | nil => rfl
    | cons b t =>
      rw [List.orderedInsert_cons, List.head?_cons]
      by_cases h : lt (key b) (key a) <;> simp [AtLeast, h]

/-- The best element is one of the list. -/
lemma mem_of_best {l : List α} {a : α} (h : best lt key l = some a) : a ∈ l := by
  rw [← head?_stableSort] at h
  exact (stableSort_perm l).mem_iff.mp (List.mem_of_mem_head? h)

/-- Changing the elements without changing their keys commutes with sorting. -/
theorem map_stableSort {f : α → α} (hf : ∀ a, key (f a) = key a) (l : List α) :
    (stableSort lt key l).map f = stableSort lt key (l.map f) := by
  refine List.map_insertionSort _ _ f l fun a _ b _ => ?_
  rw [AtLeast, AtLeast, hf a, hf b]

variable [IsStrictTotalOrder κ lt]

instance : Std.Total (AtLeast lt key) where
  total a b := by
    by_cases h : lt (key b) (key a)
    · exact Or.inr (asymm h)
    · exact Or.inl h

instance : IsTrans α (AtLeast lt key) where
  trans a b c hab hbc hca := by
    -- the key of `b` lies between those of `c` and `a`, or equals that of `a`
    by_cases hba : key b = key a
    · exact hbc (hba ▸ hca)
    · have hlt : lt (key a) (key b) := by
        by_contra hnot
        exact hba (Std.Trichotomous.trichotomous _ _ hab hnot)
      exact hbc (trans_of lt hca hlt)

/-- The sorted list is sorted. -/
lemma pairwise_stableSort (l : List α) : (stableSort lt key l).Pairwise (AtLeast lt key) :=
  List.pairwise_insertionSort _ l

/-- Inserting an element before its equals and one behind its equals can be done in either
order. -/
lemma orderedInsert_comm (a x : α) (l : List α) :
    (l.orderedInsert (Before lt key) a).orderedInsert (AtLeast lt key) x =
      (l.orderedInsert (AtLeast lt key) x).orderedInsert (Before lt key) a := by
  have hax : AtLeast lt key x a ↔ ¬ Before lt key a x := Iff.rfl
  induction l with
  | nil => by_cases h : Before lt key a x <;> simp [hax, h]
  | cons b l ih =>
    have hbx : AtLeast lt key x b ↔ ¬ Before lt key b x := Iff.rfl
    by_cases hb : Before lt key b x <;> by_cases ha : Before lt key a b
    · have h : Before lt key a x := trans_of lt ha hb
      simp [hax, hbx, hb, ha, h]
    · simp [hbx, hb, ha, ih]
    · by_cases h : Before lt key a x <;> simp [hax, hbx, hb, ha, h]
    · -- neither does `a` come before `b` nor `b` before `x`, so `a` does not come before `x`
      have h : ¬ Before lt key a x := trans_of (AtLeast lt key) (hbx.mpr hb) ha
      simp [hbx, hb, ha, h]

/-- What arrives last is inserted behind its equals. -/
theorem stableSort_concat (l : List α) (a : α) :
    stableSort lt key (l ++ [a]) =
      (stableSort lt key l).orderedInsert (Before lt key) a := by
  induction l with
  | nil => rfl
  | cons x l ih => rw [List.cons_append, stableSort_cons, ih, orderedInsert_comm, stableSort_cons]

/-- Selecting from a sorted list after an insertion. -/
lemma filter_orderedInsert {l : List α} (hl : l.Pairwise (AtLeast lt key)) (p : α → Bool) (a : α) :
    (l.orderedInsert (AtLeast lt key) a).filter p =
      if p a then (l.filter p).orderedInsert (AtLeast lt key) a else l.filter p := by
  induction l with
  | nil => by_cases hp : p a <;> simp [hp]
  | cons b l ih =>
    obtain ⟨hb, hrest⟩ := List.pairwise_cons.mp hl
    by_cases hab : AtLeast lt key a b
    · -- everything selected comes behind `a` as well
      have hfirst : ∀ c ∈ (b :: l).filter p, AtLeast lt key a c := by
        intro c hc
        rcases List.mem_cons.mp (List.mem_of_mem_filter hc) with rfl | hmem
        · exact hab
        · exact trans_of (AtLeast lt key) hab (hb c hmem)
      rw [List.orderedInsert_cons_of_le _ _ hab, List.filter_cons (x := a),
        orderedInsert_of_forall hfirst]
    · rw [List.orderedInsert_of_not_le _ _ hab, List.filter_cons (x := b), ih hrest]
      by_cases hp : p a <;> by_cases hpb : p b <;> simp [hp, hpb, hab]

/-- Selecting elements commutes with sorting. -/
theorem filter_stableSort (p : α → Bool) (l : List α) :
    (stableSort lt key l).filter p = stableSort lt key (l.filter p) := by
  induction l with
  | nil => rfl
  | cons a l ih =>
    rw [stableSort_cons, filter_orderedInsert (pairwise_stableSort l), ih, List.filter_cons]
    split_ifs
    · rfl
    · rfl

end StableSort
