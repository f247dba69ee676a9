import ToyExchange.Foundations.StableSort
import Mathlib.Tactic.Common

/-!
# Sorted associative arrays

`FlatMap κ ν r` is a finite map kept as a list of entries whose keys are strictly increasing
for `r`; the order is a field, so an unsorted map cannot be built.  `upsert` is a subscript
followed by an update of the slot it returns (the slot is created if the key is new), `alter`
changes or erases the entry of a key that is present, and `ofSublist` keeps some of the keys.

When the values are queues, `spread` lists all the queued elements with their keys, first key
first and each queue front to back.  `spread_upsert_concat` and `spread_alter_filter` say what
joining a queue and leaving one do to that listing.  If no queue is empty then the listing
determines the map (`eq_of_spread_eq`).
-/

/-- A finite map from `κ` to `ν` as a list of entries with strictly increasing keys. -/
@[ext] structure FlatMap (κ ν : Type*) (r : κ → κ → Prop) where
  /-- The entries, in the order of their keys. -/
  entries : List (κ × ν)
  /-- The keys are strictly increasing. -/
  sorted : (entries.map Prod.fst).Pairwise r

namespace FlatMap

variable {κ ν β : Type*} {r : κ → κ → Prop}

/-- The map with no entries. -/
def empty : FlatMap κ ν r := ⟨[], List.Pairwise.nil⟩

@[simp] lemma entries_empty : (empty : FlatMap κ ν r).entries = [] := rfl

/-- Entries whose keys are some of the keys of a map, in the same order, are a map. -/
def ofSublist (m : FlatMap κ ν r) (entries : List (κ × ν))
    (h : (entries.map Prod.fst).Sublist (m.entries.map Prod.fst)) : FlatMap κ ν r :=
  ⟨entries, m.sorted.sublist h⟩

@[simp] lemma entries_ofSublist (m : FlatMap κ ν r) (entries : List (κ × ν))
    (h : (entries.map Prod.fst).Sublist (m.entries.map Prod.fst)) :
    (m.ofSublist entries h).entries = entries := rfl

/-! ## Subscripting -/

/-- Update the value of a key with `f`, starting from `init` if the key is new. -/
def upsertEntries [DecidableRel r] (init : ν) (f : ν → ν) (k : κ) :
    List (κ × ν) → List (κ × ν)
  | [] => [(k, f init)]
  | (k', v) :: rest =>
    if r k k' then (k, f init) :: (k', v) :: rest
    else if r k' k then (k', v) :: upsertEntries init f k rest
    else (k', f v) :: rest

/-- The keys after an update are the old ones and the updated one. -/
lemma mem_keys_upsertEntries [DecidableRel r] {init : ν} {f : ν → ν} {k x : κ}
    {l : List (κ × ν)} (hx : x ∈ (upsertEntries (r := r) init f k l).map Prod.fst) :
    x = k ∨ x ∈ l.map Prod.fst := by
  induction l with
  | nil => simpa [upsertEntries] using hx
  | cons e rest ih =>
    obtain ⟨k', v⟩ := e
    rw [upsertEntries] at hx
    split_ifs at hx with h1 h2
    · simpa using hx
    · rcases List.mem_cons.mp hx with rfl | hx
      · exact Or.inr (by simp)
      · exact (ih hx).imp id fun h => List.mem_cons_of_mem _ h
    · exact Or.inr (by simpa using hx)

variable [IsStrictTotalOrder κ r]

/-- Updating a key keeps the keys strictly increasing. -/
lemma sorted_upsertEntries [DecidableRel r] (init : ν) (f : ν → ν) (k : κ)
    {l : List (κ × ν)} (hl : (l.map Prod.fst).Pairwise r) :
    ((upsertEntries (r := r) init f k l).map Prod.fst).Pairwise r := by
  induction l with
  | nil => simp [upsertEntries]
  | cons e rest ih =>
    obtain ⟨k', v⟩ := e
    rw [List.map_cons, List.pairwise_cons] at hl
    rw [upsertEntries]
    split_ifs with h1 h2
    · refine List.pairwise_cons.mpr ⟨fun x hx => ?_, List.pairwise_cons.mpr hl⟩
      rcases List.mem_cons.mp hx with rfl | hx
      · exact h1
      · exact trans_of r h1 (hl.1 x hx)
    · refine List.pairwise_cons.mpr ⟨fun x hx => ?_, ih hl.2⟩
      rcases mem_keys_upsertEntries hx with rfl | hx
      · exact h2
      · exact hl.1 x hx
    · exact List.pairwise_cons.mpr hl

/-- `m[k]` followed by an update `f` of the slot, which holds `init` if the key is new. -/
def upsert [DecidableRel r] (m : FlatMap κ ν r) (init : ν) (f : ν → ν) (k : κ) :
    FlatMap κ ν r :=
  ⟨upsertEntries (r := r) init f k m.entries, sorted_upsertEntries init f k m.sorted⟩

@[simp] lemma entries_upsert [DecidableRel r] (m : FlatMap κ ν r) (init : ν) (f : ν → ν)
    (k : κ) : (m.upsert init f k).entries = upsertEntries (r := r) init f k m.entries := rfl

omit [IsStrictTotalOrder κ r]

/-! ## Changing or erasing the entry of a key -/

/-- Replace the value of a key by `f` of it, or erase its entry if `f` gives nothing. -/
def alterEntries [DecidableEq κ] (f : ν → Option ν) (k : κ) : List (κ × ν) → List (κ × ν)
  | [] => []
  | (k', v) :: rest =>
    if k' = k then
      match f v with
      | none => rest
      | some v' => (k', v') :: rest
    else (k', v) :: alterEntries f k rest

/-- Altering an entry adds no key and moves none. -/
lemma keys_alterEntries_sublist [DecidableEq κ] (f : ν → Option ν) (k : κ) (l : List (κ × ν)) :
    ((alterEntries f k l).map Prod.fst).Sublist (l.map Prod.fst) := by
  induction l with
  | nil => exact List.Sublist.refl _
  | cons e rest ih =>
    obtain ⟨k', v⟩ := e
    rw [alterEntries]
    split_ifs with hk
    · cases f v with
      | none => exact List.sublist_cons_self _ _
      | some v' => exact List.Sublist.refl _
    · exact ih.cons_cons k'

/-- `find` followed by an update or an erase of the entry found; nothing if the key is absent. -/
def alter [DecidableEq κ] (m : FlatMap κ ν r) (f : ν → Option ν) (k : κ) : FlatMap κ ν r :=
  m.ofSublist (alterEntries f k m.entries) (keys_alterEntries_sublist f k m.entries)

@[simp] lemma entries_alter [DecidableEq κ] (m : FlatMap κ ν r) (f : ν → Option ν) (k : κ) :
    (m.alter f k).entries = alterEntries f k m.entries := rfl

/-- What holds of every value and is kept by `f` holds of every value after an alteration. -/
lemma forall_alterEntries [DecidableEq κ] {P : κ → ν → Prop} {f : ν → Option ν} {k : κ}
    {l : List (κ × ν)} (hl : ∀ e ∈ l, P e.1 e.2) (hf : ∀ v v', P k v → f v = some v' → P k v') :
    ∀ e ∈ alterEntries f k l, P e.1 e.2 := by
  induction l with
  | nil => exact hl
  | cons e rest ih =>
    obtain ⟨k', v⟩ := e
    have hhead : P k' v := hl (k', v) (List.mem_cons_self ..)
    have hrest : ∀ e ∈ rest, P e.1 e.2 := fun e he => hl e (List.mem_cons_of_mem _ he)
    rw [alterEntries]
    split_ifs with hk
    · subst hk
      cases hv : f v with
      | none => exact hrest
      | some v' => exact List.forall_mem_cons.mpr ⟨hf v v' hhead hv, hrest⟩
    · exact List.forall_mem_cons.mpr ⟨hhead, ih hrest⟩

/-- The entries after an alteration: the one of the key is altered, the others are as they were. -/
lemma mem_alterEntries [DecidableEq κ] [Std.Irrefl r] {f : ν → Option ν} {k k' : κ} {v' : ν}
    {l : List (κ × ν)} (hl : (l.map Prod.fst).Pairwise r) :
    (k', v') ∈ alterEntries f k l ↔
      ∃ v, (k', v) ∈ l ∧ if k' = k then f v = some v' else v' = v := by
  induction l with
  | nil => simp [alterEntries]
  | cons e rest ih =>
    obtain ⟨k₀, v₀⟩ := e
    rw [List.map_cons, List.pairwise_cons] at hl
    have ih := ih hl.2
    rw [alterEntries]
    by_cases hk : k' = k
    · subst hk
      simp only [if_true] at ih ⊢
      by_cases hk₀ : k₀ = k'
      · subst hk₀
        -- no later entry has this key
        have hrest : ∀ v, (k₀, v) ∉ rest := fun v hv =>
          irrefl_of r k₀ (hl.1 k₀ (List.mem_map_of_mem hv))
        rw [if_pos rfl]
        cases hv₀ : f v₀ with
        | none => simp [hrest, hv₀]
        | some v₁ => simp [hrest, hv₀, eq_comm]
      · rw [if_neg hk₀, List.mem_cons, ih]
        simp [Ne.symm hk₀]
    · simp only [if_neg hk] at ih ⊢
      by_cases hk₀ : k₀ = k
      · rw [if_pos hk₀]
        cases f v₀ <;> simp [hk₀, hk]
      · rw [if_neg hk₀, List.mem_cons, ih]
        simp

/-- What holds of every value and is kept or established by the update holds of every value
after a subscript. -/
lemma forall_upsertEntries [DecidableRel r] [IsStrictTotalOrder κ r] {P : κ → ν → Prop}
    {init : ν} {f : ν → ν} {k : κ} {l : List (κ × ν)} (hl : ∀ e ∈ l, P e.1 e.2)
    (hinit : P k (f init)) (hf : ∀ v, P k v → P k (f v)) :
    ∀ e ∈ upsertEntries (r := r) init f k l, P e.1 e.2 := by
  induction l with
  | nil => simpa [upsertEntries] using hinit
  | cons e rest ih =>
    obtain ⟨k', v⟩ := e
    have hhead : P k' v := hl (k', v) (List.mem_cons_self ..)
    have hrest : ∀ e ∈ rest, P e.1 e.2 := fun e he => hl e (List.mem_cons_of_mem _ he)
    rw [upsertEntries]
    split_ifs with h1 h2
    · exact List.forall_mem_cons.mpr ⟨hinit, hl⟩
    · exact List.forall_mem_cons.mpr ⟨hhead, ih hrest⟩
    · obtain rfl : k = k' := Std.Trichotomous.trichotomous k k' h1 h2
      exact List.forall_mem_cons.mpr ⟨hf v hhead, hrest⟩

/-! ## Renaming the keys -/

/-- Rename the keys of a list of entries. -/
def mapKeys {κ' : Type*} (g : κ → κ') (l : List (κ × ν)) : List (κ' × ν) :=
  l.map fun e => (g e.1, e.2)

/-- A subscript commutes with a renaming of the keys that respects the orders. -/
lemma upsertEntries_mapKeys {κ' : Type*} {r' : κ' → κ' → Prop} [DecidableRel r] [DecidableRel r']
    {g : κ → κ'} (hg : ∀ a b, r' (g a) (g b) ↔ r a b) (init : ν) (f : ν → ν) (k : κ)
    (l : List (κ × ν)) :
    upsertEntries (r := r') init f (g k) (mapKeys g l) =
      mapKeys g (upsertEntries (r := r) init f k l) := by
  induction l with
  | nil => rfl
  | cons e rest ih =>
    obtain ⟨k', v⟩ := e
    change upsertEntries (r := r') init f (g k) ((g k', v) :: mapKeys g rest) = _
    rw [upsertEntries, upsertEntries]
    simp only [hg]
    split_ifs
    · rfl
    · rw [ih]
      rfl
    · rfl

/-- Altering an entry commutes with an injective renaming of the keys. -/
lemma alterEntries_mapKeys {κ' : Type*} [DecidableEq κ] [DecidableEq κ'] {g : κ → κ'}
    (hg : Function.Injective g) (f : ν → Option ν) (k : κ) (l : List (κ × ν)) :
    alterEntries f (g k) (mapKeys g l) = mapKeys g (alterEntries f k l) := by
  induction l with
  | nil => rfl
  | cons e rest ih =>
    obtain ⟨k', v⟩ := e
    change alterEntries f (g k) ((g k', v) :: mapKeys g rest) = _
    rw [alterEntries, alterEntries]
    simp only [hg.eq_iff]
    split_ifs
    · cases f v <;> rfl
    · rw [ih]
      rfl

/-! ## Maps of queues -/

/-- All the elements of the queues with their keys, first key first, front to back. -/
def spread (l : List (κ × List β)) : List (κ × β) :=
  l.flatMap fun e => e.2.map (Prod.mk e.1)

@[simp] lemma spread_nil : spread ([] : List (κ × List β)) = [] := rfl

@[simp] lemma spread_cons (e : κ × List β) (l : List (κ × List β)) :
    spread (e :: l) = e.2.map (Prod.mk e.1) ++ spread l := by
  simp [spread]

/-- An element is listed exactly when it stands in the queue of its key. -/
lemma mem_spread {l : List (κ × List β)} {k : κ} {b : β} :
    (k, b) ∈ spread l ↔ ∃ q, (k, q) ∈ l ∧ b ∈ q := by
  simp only [spread, List.mem_flatMap, List.mem_map, Prod.mk.injEq]
  constructor
  · rintro ⟨e, he, b', hb', rfl, rfl⟩
    exact ⟨e.2, he, hb'⟩
  · rintro ⟨q, hq, hb⟩
    exact ⟨(k, q), hq, b, hb, rfl, rfl⟩

/-- The listing of a sorted map is sorted by key, elements of one key being equivalent. -/
lemma pairwise_spread [Std.Irrefl r] [IsTrans κ r] {l : List (κ × List β)}
    (hl : (l.map Prod.fst).Pairwise r) : (spread l).Pairwise fun a b => ¬ r b.1 a.1 := by
  induction l with
  | nil => exact List.Pairwise.nil
  | cons e rest ih =>
    rw [List.map_cons, List.pairwise_cons] at hl
    rw [spread_cons, List.pairwise_append]
    refine ⟨List.pairwise_map.mpr (List.pairwise_of_forall fun _ _ => irrefl_of r e.1), ih hl.2, ?_⟩
    rintro a ha ⟨k, b⟩ hb hlt
    obtain ⟨b', -, rfl⟩ := List.mem_map.mp ha
    obtain ⟨q, hq, -⟩ := mem_spread.mp hb
    exact irrefl_of r e.1 (trans_of r (hl.1 k (List.mem_map_of_mem hq)) hlt)

/-- The elements of the first key are the first queue. -/
lemma filter_key_append [DecidableEq κ] [Std.Irrefl r] {k : κ} (q : List β)
    {rest : List (κ × List β)} (hk : ∀ k' ∈ rest.map Prod.fst, r k k') :
    (q.map (Prod.mk k) ++ spread rest).filter (fun x => x.1 = k) = q.map (Prod.mk k) := by
  have hqueue : (q.map (Prod.mk k)).filter (fun x => x.1 = k) = q.map (Prod.mk k) := by
    simp [List.filter_eq_self]
  have hrest : (spread rest).filter (fun x => x.1 = k) = [] := by
    rw [List.filter_eq_nil_iff]
    rintro ⟨k', b⟩ hb hkey
    obtain ⟨q', hq', -⟩ := mem_spread.mp hb
    obtain rfl : k' = k := of_decide_eq_true hkey
    exact irrefl_of r k' (hk k' (List.mem_map_of_mem hq'))
  rw [List.filter_append, hqueue, hrest, List.append_nil]

/-- A sorted map without empty queues is determined by its listing. -/
theorem eq_of_spread_eq [DecidableEq κ] [Std.Irrefl r] {l l' : List (κ × List β)}
    (hl : (l.map Prod.fst).Pairwise r) (hl' : (l'.map Prod.fst).Pairwise r)
    (hne : ∀ e ∈ l, e.2 ≠ []) (hne' : ∀ e ∈ l', e.2 ≠ []) (h : spread l = spread l') : l = l' := by
  induction l generalizing l' with
  | nil =>
    cases l' with
    | nil => rfl
    | cons e' rest' =>
      have hqueue : e'.2 = [] := by
        rw [spread_nil, spread_cons, eq_comm, List.append_eq_nil_iff, List.map_eq_nil_iff] at h
        exact h.1
      exact absurd hqueue (hne' e' (List.mem_cons_self ..))
  | cons e rest ih =>
    obtain ⟨k, q⟩ := e
    rw [List.map_cons, List.pairwise_cons] at hl
    obtain ⟨hq, hrest⟩ := List.forall_mem_cons.mp hne
    cases l' with
    | nil =>
      rw [spread_nil, spread_cons, List.append_eq_nil_iff, List.map_eq_nil_iff] at h
      exact absurd h.1 hq
    | cons e' rest' =>
      obtain ⟨k', q'⟩ := e'
      rw [List.map_cons, List.pairwise_cons] at hl'
      obtain ⟨hq', hrest'⟩ := List.forall_mem_cons.mp hne'
      rw [spread_cons, spread_cons] at h
      -- the first element listed gives the first key
      obtain rfl : k = k' := by
        obtain ⟨b, q, rfl⟩ := List.exists_cons_of_ne_nil hq
        obtain ⟨b', q', rfl⟩ := List.exists_cons_of_ne_nil hq'
        exact congrArg Prod.fst (List.head_eq_of_cons_eq h)
      -- and the elements of that key are the first queue
      obtain rfl : q = q' := by
        have hkey := congrArg (List.filter fun x => x.1 = k) h
        rw [filter_key_append q hl.1, filter_key_append q' hl'.1] at hkey
        exact List.map_injective_iff.mpr (Prod.mk_right_injective k) hkey
      rw [ih hl.2 hl'.2 hrest hrest' (List.append_cancel_left h)]

/-- Joining the queue of a key at its back lists the new element after everything that does
not come strictly later, and before the rest. -/
theorem spread_upsert_concat [DecidableRel r] [IsStrictTotalOrder κ r] (k : κ) (b : β)
    {l : List (κ × List β)} (hl : (l.map Prod.fst).Pairwise r) :
    spread (upsertEntries (r := r) [] (· ++ [b]) k l) =
      (spread l).orderedInsert (fun x y => r x.1 y.1) (k, b) := by
  induction l with
  | nil => rfl
  | cons e rest ih =>
    obtain ⟨k', q⟩ := e
    rw [List.map_cons, List.pairwise_cons] at hl
    have hrest : ∀ x ∈ spread rest, r k' x.1 := by
      rintro ⟨k'', c⟩ hc
      obtain ⟨q', hq', -⟩ := mem_spread.mp hc
      exact hl.1 k'' (List.mem_map_of_mem hq')
    have hqueue : ¬ r k k' → ∀ x ∈ q.map (Prod.mk k'), ¬ r k x.1 := by
      intro h1 x hx
      obtain ⟨c, -, rfl⟩ := List.mem_map.mp hx
      exact h1
    rw [upsertEntries, spread_cons]
    split_ifs with h1 h2
    · -- a new key before the first one: the element is listed first
      have hall : ∀ x ∈ q.map (Prod.mk k') ++ spread rest, r k x.1 := by
        intro x hx
        rcases List.mem_append.mp hx with hx | hx
        · obtain ⟨c, -, rfl⟩ := List.mem_map.mp hx
          exact h1
        · exact trans_of r h1 (hrest x hx)
      rw [StableSort.orderedInsert_of_forall (s := fun x y : κ × β => r x.1 y.1) hall]
      simp
    · rw [StableSort.orderedInsert_append_of_forall_not (s := fun x y : κ × β => r x.1 y.1)
        (hqueue h1),
        ← ih hl.2, spread_cons]
    · obtain rfl : k = k' := Std.Trichotomous.trichotomous k k' h1 h2
      rw [StableSort.orderedInsert_append_of_forall_not (s := fun x y : κ × β => r x.1 y.1)
        (hqueue h1),
        StableSort.orderedInsert_of_forall (s := fun x y : κ × β => r x.1 y.1) hrest]
      simp

/-- Keep the elements of a queue that satisfy `p`, or nothing if there are none. -/
def keep (p : β → Bool) (q : List β) : Option (List β) :=
  if (q.filter p).isEmpty then none else some (q.filter p)

lemma keep_eq_some {p : β → Bool} {q q' : List β} :
    keep p q = some q' ↔ q' = q.filter p ∧ q' ≠ [] := by
  unfold keep
  split_ifs with hempty
  · rw [List.isEmpty_iff] at hempty
    constructor
    · intro h
      cases h
    · rintro ⟨rfl, hne⟩
      exact absurd hempty hne
  · rw [List.isEmpty_iff] at hempty
    rw [Option.some_inj]
    constructor
    · rintro rfl
      exact ⟨rfl, hempty⟩
    · exact fun h => h.1.symm

/-- Leaving the queue of a key, the queue itself going once it is empty, removes exactly the
elements of that key that do not satisfy `p`. -/
theorem spread_alter_filter [DecidableEq κ] [Std.Irrefl r] (p : β → Bool) (k : κ)
    {l : List (κ × List β)} (hl : (l.map Prod.fst).Pairwise r) :
    spread (alterEntries (keep p) k l) =
      (spread l).filter fun x => decide (x.1 ≠ k) || p x.2 := by
  induction l with
  | nil => rfl
  | cons e rest ih =>
    obtain ⟨k', q⟩ := e
    rw [List.map_cons, List.pairwise_cons] at hl
    rw [alterEntries, spread_cons, List.filter_append]
    split_ifs with hk
    · subst hk
      -- no later entry has this key, so the rest of the listing is kept
      have hrest : (spread rest).filter (fun x => decide (x.1 ≠ k') || p x.2) = spread rest := by
        rw [List.filter_eq_self]
        rintro ⟨k'', b⟩ hb
        obtain ⟨q', hq', -⟩ := mem_spread.mp hb
        have hne : k'' ≠ k' := by
          rintro rfl
          exact irrefl_of r k'' (hl.1 k'' (List.mem_map_of_mem hq'))
        simp [hne]
      have hqueue : (q.map (Prod.mk k')).filter (fun x => decide (x.1 ≠ k') || p x.2) =
          (q.filter p).map (Prod.mk k') := by
        simp [List.filter_map, Function.comp_def]
      rw [hrest, hqueue, keep]
      by_cases hempty : (q.filter p).isEmpty
      · rw [if_pos hempty, List.isEmpty_iff.mp hempty]
        rfl
      · rw [if_neg hempty]
        simp
    · have hqueue : (q.map (Prod.mk k')).filter (fun x => decide (x.1 ≠ k) || p x.2) =
          q.map (Prod.mk k') := by
        simp [List.filter_eq_self, hk]
      rw [spread_cons, ih hl.2, hqueue]

end FlatMap
