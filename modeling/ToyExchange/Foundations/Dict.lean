import Mathlib.Data.List.Nodup
import Mathlib.Data.List.Perm.Basic
import Mathlib.Logic.Function.Basic
import Mathlib.Algebra.BigOperators.Group.List.Basic
import Mathlib.Tactic.Common

/-!
# Lookup functions and dictionaries

`Represents index l` says that the lookup function `index` is that of the association list `l`,
and that the keys of `l` are distinct.  The lemmas follow the list through the updates of an
index: dropping a part of the list, filtering out a key, and adding or changing one.

`Dict κ ν` is a dictionary that keeps its entries in the order of their insertion; that the keys
are distinct is a field.  `get_set` and `get_pop` say what the operations do to the lookup, and
`get_foldl_addTo` what is left by a loop that adds up amounts by key.  Changing every value commutes
with the operations, and `map_mergeSort_keys` says what a loop over the sorted keys sees.
-/

/-- `index` is the lookup function of the association list `l`, whose keys are distinct. -/
structure Represents {κ ν : Type*} (index : κ → Option ν) (l : List (κ × ν)) : Prop where
  /-- No key occurs twice. -/
  nodup : (l.map Prod.fst).Nodup
  /-- A value is found at a key exactly when the pair is listed. -/
  lookup : ∀ k v, index k = some v ↔ (k, v) ∈ l

namespace Represents

variable {κ ν : Type*} {index index' : κ → Option ν} {l l' a b : List (κ × ν)}

lemma nil : Represents (fun _ : κ => (none : Option ν)) [] := ⟨List.nodup_nil, by simp⟩

/-- The order of the list does not matter. -/
lemma perm (h : Represents index l) (hl : l.Perm l') : Represents index l' where
  nodup := (hl.map Prod.fst).nodup_iff.mp h.nodup
  lookup k v := (h.lookup k v).trans hl.mem_iff

/-- Erasing the keys of the first part of the list leaves the second part. -/
lemma of_append [DecidableEq κ] (h : Represents index (a ++ b))
    (hindex : ∀ k, index' k = if k ∈ a.map Prod.fst then none else index k) :
    Represents index' b := by
  have hnodup := h.nodup
  rw [List.map_append, List.nodup_append] at hnodup
  obtain ⟨-, hb, hdisjoint⟩ := hnodup
  refine ⟨hb, fun k v => ?_⟩
  rw [hindex k]
  split_ifs with hk
  · refine ⟨fun hnone => by simp at hnone, fun hmem => ?_⟩
    exact absurd rfl (hdisjoint k hk k (List.mem_map.mpr ⟨(k, v), hmem, rfl⟩))
  · rw [h.lookup, List.mem_append]
    have hnot : (k, v) ∉ a := fun hmem => hk (List.mem_map.mpr ⟨(k, v), hmem, rfl⟩)
    exact or_iff_right hnot

/-- Assigning a key that is not listed adds its pair. -/
lemma insert [DecidableEq κ] (h : Represents index l) {k : κ} {v : ν}
    (hk : k ∉ l.map Prod.fst) : Represents (Function.update index k (some v)) ((k, v) :: l) where
  nodup := List.nodup_cons.mpr ⟨hk, h.nodup⟩
  lookup k' v' := by
    rw [Function.update_apply, List.mem_cons]
    split_ifs with hk'
    · subst hk'
      have hnot : (k', v') ∉ l := fun hmem => hk (List.mem_map.mpr ⟨(k', v'), hmem, rfl⟩)
      rw [or_iff_left hnot, Prod.mk.injEq, Option.some.injEq]
      exact ⟨fun hv => ⟨rfl, hv.symm⟩, fun hv => hv.2.symm⟩
    · rw [h.lookup]
      have hne : (k', v') ≠ (k, v) := fun heq => hk' (congrArg Prod.fst heq)
      exact (or_iff_right hne).symm

/-- Erasing a key drops its pair. -/
lemma erase [DecidableEq κ] (h : Represents index l) (k : κ) :
    Represents (Function.update index k none) (l.filter fun x => x.1 ≠ k) where
  nodup := h.nodup.sublist (List.filter_sublist.map Prod.fst)
  lookup k' v' := by
    rw [Function.update_apply, List.mem_filter]
    split_ifs with hk'
    · simp [hk']
    · simp [h.lookup, hk']

/-- Erasing the first key drops its pair. -/
lemma erase_cons [DecidableEq κ] {k : κ} {v : ν} (h : Represents index ((k, v) :: l)) :
    Represents (Function.update index k none) l := by
  have happend : Represents index ([(k, v)] ++ l) := h
  refine happend.of_append fun k' => ?_
  rw [Function.update_apply]
  simp

/-- Assigning the first key changes its pair. -/
lemma update_cons [DecidableEq κ] {k : κ} {v : ν} (h : Represents index ((k, v) :: l)) (v' : ν) :
    Represents (Function.update index k (some v')) ((k, v') :: l) := by
  have hinsert := h.erase_cons.insert (v := v') (List.nodup_cons.mp h.nodup).1
  rwa [Function.update_idem] at hinsert

/-- Assigning a key that is listed changes its pair. -/
lemma replace [DecidableEq κ] (h : Represents index l) {k : κ} (v : ν)
    (hk : k ∈ l.map Prod.fst) :
    Represents (Function.update index k (some v))
      (l.map fun x => if x.1 = k then (k, v) else x) where
  nodup := by
    have hkeys : (l.map fun x => if x.1 = k then (k, v) else x).map Prod.fst = l.map Prod.fst := by
      rw [List.map_map]
      refine List.map_congr_left fun x _ => ?_
      by_cases hx : x.1 = k <;> simp [hx]
    rw [hkeys]
    exact h.nodup
  lookup k' v' := by
    rw [Function.update_apply, List.mem_map]
    split_ifs with hk'
    · subst hk'
      obtain ⟨x, hx, hxk⟩ := List.mem_map.mp hk
      constructor
      · intro hv
        obtain rfl := Option.some.inj hv
        exact ⟨x, hx, if_pos hxk⟩
      · rintro ⟨y, hy, heq⟩
        split_ifs at heq with hyk
        · rw [(Prod.mk.inj heq).2]
        · exact absurd (congrArg Prod.fst heq) hyk
    · rw [h.lookup]
      constructor
      · intro hmem
        exact ⟨(k', v'), hmem, if_neg hk'⟩
      · rintro ⟨y, hy, heq⟩
        split_ifs at heq with hyk
        · exact absurd (congrArg Prod.fst heq).symm hk'
        · exact heq ▸ hy

/-- A list has one lookup function. -/
lemma unique (h : Represents index l) (h' : Represents index' l) : index = index' := by
  funext k
  refine Option.ext fun v => ?_
  rw [h.lookup, h'.lookup]

/-- Two lists with one lookup function have the same pairs. -/
lemma perm_of_same (h : Represents index l) (h' : Represents index l') : l.Perm l' := by
  rw [List.perm_ext_iff_of_nodup (List.Nodup.of_map _ h.nodup) (List.Nodup.of_map _ h'.nodup)]
  rintro ⟨k, v⟩
  rw [← h.lookup, ← h'.lookup]

end Represents

/-! ## Dictionaries -/

/-- A dictionary: entries in the order of their insertion, with distinct keys. -/
structure Dict (κ ν : Type*) where
  /-- The entries. -/
  entries : List (κ × ν)
  /-- No key occurs twice. -/
  nodup : (entries.map Prod.fst).Nodup

namespace Dict

variable {κ ν : Type*} [DecidableEq κ]

/-- The dictionary with no entries. -/
def empty : Dict κ ν := ⟨[], List.nodup_nil⟩

/-- The value of a key. -/
def get (d : Dict κ ν) (k : κ) : Option ν := (d.entries.find? fun x => x.1 = k).map Prod.snd

/-- The values, in the order of the entries. -/
def values (d : Dict κ ν) : List ν := d.entries.map Prod.snd

/-- The entries after an assignment: the value of the key is changed at its place, or a new entry
comes last. -/
def setEntries (l : List (κ × ν)) (k : κ) (v : ν) : List (κ × ν) :=
  if k ∈ l.map Prod.fst then l.map fun x => if x.1 = k then (k, v) else x else l ++ [(k, v)]

/-- The lookup of a list with distinct keys. -/
lemma represents_find {l : List (κ × ν)} (h : (l.map Prod.fst).Nodup) :
    Represents (fun k => (l.find? fun x => x.1 = k).map Prod.snd) l := by
  refine ⟨h, fun k v => ?_⟩
  induction l with
  | nil => simp
  | cons x l ih =>
    obtain ⟨hx, hl⟩ := List.nodup_cons.mp h
    rw [List.mem_cons]
    by_cases hxk : x.1 = k
    · have hnot : (k, v) ∉ l := fun hmem => hx (hxk ▸ List.mem_map.mpr ⟨(k, v), hmem, rfl⟩)
      rw [or_iff_left hnot, List.find?_cons_of_pos (by simpa using hxk), Option.map_some,
        Option.some.injEq, Prod.ext_iff]
      exact ⟨fun hv => ⟨hxk.symm, hv.symm⟩, fun hv => hv.2.symm⟩
    · have hne : (k, v) ≠ x := fun heq => hxk (congrArg Prod.fst heq).symm
      rw [or_iff_right hne, List.find?_cons_of_neg (by simpa using hxk)]
      exact ih hl

/-- The lookup of a dictionary is that of its entries. -/
lemma represents (d : Dict κ ν) : Represents d.get d.entries := represents_find d.nodup

lemma represents_setEntries {index : κ → Option ν} {l : List (κ × ν)} (h : Represents index l)
    (k : κ) (v : ν) : Represents (Function.update index k (some v)) (setEntries l k v) := by
  unfold setEntries
  split_ifs with hk
  · exact h.replace v hk
  · exact (h.insert hk).perm (List.perm_append_singleton _ _).symm

/-- Assign a value to a key. -/
def set (d : Dict κ ν) (k : κ) (v : ν) : Dict κ ν :=
  ⟨setEntries d.entries k v, (represents_setEntries d.represents k v).nodup⟩

/-- Remove a key, if it is there. -/
def pop (d : Dict κ ν) (k : κ) : Dict κ ν :=
  ⟨d.entries.filter fun x => x.1 ≠ k, (d.represents.erase k).nodup⟩

theorem get_set (d : Dict κ ν) (k : κ) (v : ν) :
    (d.set k v).get = Function.update d.get k (some v) :=
  (d.set k v).represents.unique (represents_setEntries d.represents k v)

theorem get_pop (d : Dict κ ν) (k : κ) : (d.pop k).get = Function.update d.get k none :=
  (d.pop k).represents.unique (d.represents.erase k)

/-- An assignment to an existing key, or a new one: the entries are the others and the new one. -/
lemma entries_set_perm (d : Dict κ ν) (k : κ) (v : ν) :
    (d.set k v).entries.Perm ((k, v) :: (d.pop k).entries) := by
  refine (d.set k v).represents.perm_of_same ?_
  have hk : k ∉ (d.pop k).entries.map Prod.fst := by
    intro hmem
    obtain ⟨x, hx, hxk⟩ := List.mem_map.mp hmem
    exact (of_decide_eq_true (List.mem_filter.mp hx).2) hxk
  have hinsert := (d.pop k).represents.insert (v := v) hk
  rwa [get_pop, Function.update_idem, ← get_set] at hinsert

/-- The entries with a key that is there are the others and its own. -/
lemma entries_perm_of_get {d : Dict κ ν} {k : κ} {v : ν} (h : d.get k = some v) :
    d.entries.Perm ((k, v) :: (d.pop k).entries) := by
  have hset : (d.set k v).get = d.get := by
    rw [get_set, ← h, Function.update_eq_self]
  have hperm : d.entries.Perm (d.set k v).entries :=
    d.represents.perm_of_same (hset ▸ (d.set k v).represents)
  exact hperm.trans (d.entries_set_perm k v)

/-- Removing a key that is not there changes nothing. -/
lemma entries_pop_of_get {d : Dict κ ν} {k : κ} (h : d.get k = none) :
    (d.pop k).entries = d.entries := by
  refine List.filter_eq_self.mpr fun x hx => ?_
  rw [decide_eq_true_iff]
  intro hxk
  have hget : d.get k = some x.2 := (d.represents.lookup k x.2).mpr (hxk ▸ hx)
  rw [h] at hget
  simp at hget

/-! ## Adding up by key -/

section Sums

variable {G : Type*} [AddCommMonoid G]

/-- Add an amount to the value of a key, which is zero if it is not there. -/
def addTo (d : Dict κ G) (k : κ) (v : G) : Dict κ G := d.set k ((d.get k).getD 0 + v)

/-- The sum of the amounts of a key, if there are any. -/
def sumAt : List (κ × G) → κ → Option G
  | [], _ => none
  | x :: l, k => if x.1 = k then some (x.2 + (sumAt l k).getD 0) else sumAt l k

@[simp] lemma sumAt_nil (k : κ) : sumAt ([] : List (κ × G)) k = none := rfl

lemma sumAt_cons (x : κ × G) (l : List (κ × G)) (k : κ) :
    sumAt (x :: l) k = if x.1 = k then some (x.2 + (sumAt l k).getD 0) else sumAt l k := rfl

lemma sumAt_eq (l : List (κ × G)) (k : κ) :
    sumAt l k = if l.filter (fun x => x.1 = k) = [] then none
      else some ((l.filter fun x => x.1 = k).map Prod.snd).sum := by
  induction l with
  | nil => rfl
  | cons x l ih =>
    rw [sumAt_cons, ih]
    by_cases hx : x.1 = k
    · by_cases hnil : l.filter (fun x => x.1 = k) = [] <;> simp [hx, hnil]
    · rw [if_neg hx, List.filter_cons_of_neg (by simpa using hx)]

/-- The order of the amounts does not matter. -/
lemma sumAt_perm {l l' : List (κ × G)} (h : l.Perm l') (k : κ) : sumAt l k = sumAt l' k := by
  have hfilter := h.filter fun x => x.1 = k
  have hnil : l.filter (fun x => x.1 = k) = [] ↔ l'.filter (fun x => x.1 = k) = [] :=
    ⟨fun hl => (hl ▸ hfilter).nil_eq.symm, fun hl => (hl ▸ hfilter).eq_nil⟩
  rw [sumAt_eq, sumAt_eq, (hfilter.map Prod.snd).sum_eq]
  simp only [hnil]

lemma get_addTo (d : Dict κ G) (k k' : κ) (v : G) :
    (d.addTo k v).get k' = if k = k' then some ((d.get k').getD 0 + v) else d.get k' := by
  unfold addTo
  rw [get_set, Function.update_apply]
  by_cases h : k = k'
  · rw [if_pos h, if_pos h.symm, h]
  · rw [if_neg h, if_neg (Ne.symm h)]

/-- A loop that adds up amounts by key, as what its state has under one key tells it. -/
lemma view_foldl {σ α : Type*} (f : σ → α → σ) (view : σ → Option G) (entry : α → κ × G) {k : κ}
    (hf : ∀ s x, view (f s x) =
      if (entry x).1 = k then some ((view s).getD 0 + (entry x).2) else view s)
    (l : List α) (s : σ) :
    view (l.foldl f s) =
      match sumAt (l.map entry) k with
      | none => view s
      | some v => some ((view s).getD 0 + v) := by
  induction l generalizing s with
  | nil => rfl
  | cons x l ih =>
    rw [List.foldl_cons, ih, List.map_cons, sumAt_cons, hf]
    by_cases hx : (entry x).1 = k
    · rw [if_pos hx, if_pos hx]
      cases sumAt (l.map entry) k <;> simp [add_assoc]
    · rw [if_neg hx, if_neg hx]

/-- A loop that adds up amounts by key. -/
theorem get_foldl_addTo (l : List (κ × G)) (d : Dict κ G) (k : κ) :
    (l.foldl (fun d x => d.addTo x.1 x.2) d).get k =
      match sumAt l k with
      | none => d.get k
      | some s => some ((d.get k).getD 0 + s) := by
  have hview := view_foldl (fun (d : Dict κ G) x => d.addTo x.1 x.2) (fun d => d.get k) id
    (fun d x => d.get_addTo x.1 k x.2) l d
  rw [List.map_id] at hview
  exact hview

end Sums

/-! ## Changing the values -/

section MapValues

variable {ν' : Type*} (f : ν → ν')

/-- Change every value. -/
def mapValues (d : Dict κ ν) : Dict κ ν' where
  entries := d.entries.map fun x => (x.1, f x.2)
  nodup := by
    rw [List.map_map]
    exact d.nodup

omit [DecidableEq κ] in
lemma eq_of_entries {d d' : Dict κ ν} (h : d.entries = d'.entries) : d = d' := by
  obtain ⟨entries, nodup⟩ := d
  obtain ⟨entries', nodup'⟩ := d'
  obtain rfl : entries = entries' := h
  rfl

omit [DecidableEq κ] in
lemma values_mapValues (d : Dict κ ν) : (d.mapValues f).values = d.values.map f := by
  unfold values mapValues
  rw [List.map_map, List.map_map]
  rfl

lemma get_mapValues (d : Dict κ ν) (k : κ) : (d.mapValues f).get k = (d.get k).map f := by
  unfold get mapValues
  rw [List.find?_map, Option.map_map, Option.map_map]
  rfl

lemma pop_mapValues (d : Dict κ ν) (k : κ) : (d.mapValues f).pop k = (d.pop k).mapValues f := by
  refine eq_of_entries ?_
  change (d.entries.map fun x => (x.1, f x.2)).filter (fun x => x.1 ≠ k) =
    (d.entries.filter fun x => x.1 ≠ k).map fun x => (x.1, f x.2)
  rw [List.filter_map]
  rfl

lemma set_mapValues (d : Dict κ ν) (k : κ) (v : ν) :
    (d.mapValues f).set k (f v) = (d.set k v).mapValues f := by
  have hkeys : (d.entries.map fun x => (x.1, f x.2)).map Prod.fst = d.entries.map Prod.fst := by
    rw [List.map_map]
    rfl
  refine eq_of_entries ?_
  unfold set mapValues setEntries
  dsimp only
  rw [hkeys]
  split_ifs with hk
  · rw [List.map_map, List.map_map]
    refine List.map_congr_left fun x _ => ?_
    by_cases hx : x.1 = k <;> simp [hx]
  · rw [List.map_append]
    rfl

end MapValues

/-! ## Going through the keys in order -/

/-- The keys, in the order of the entries. -/
def keys (d : Dict κ ν) : List κ := d.entries.map Prod.fst

/-- Looking up the keys in order gives the sorted list of the entries. -/
lemma map_mergeSort_keys (d : Dict κ ν) {le : κ → κ → Bool}
    (htrans : ∀ a b c, le a b → le b c → le a c) (htotal : ∀ a b, le a b || le b a)
    (hantisymm : ∀ a b, le a b → le b a → a = b) {l : List (κ × ν)} (h : Represents d.get l)
    (hsorted : (l.map Prod.fst).Pairwise fun a b => le a b) (default : ν) :
    (d.keys.mergeSort le).map (fun k => (k, (d.get k).getD default)) = l := by
  have hperm : (d.keys.mergeSort le).Perm (l.map Prod.fst) :=
    (List.mergeSort_perm _ _).trans ((d.represents.perm_of_same h).map Prod.fst)
  have hkeys : d.keys.mergeSort le = l.map Prod.fst :=
    hperm.eq_of_pairwise (fun a b _ _ => hantisymm a b) (List.pairwise_mergeSort htrans htotal _)
      hsorted
  rw [hkeys, List.map_map]
  refine (List.map_congr_left fun x hx => ?_).trans (List.map_id l)
  have hget : d.get x.1 = some x.2 := (h.lookup x.1 x.2).mpr hx
  rw [Function.comp_apply, hget]
  rfl

end Dict
