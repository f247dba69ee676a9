import Mathlib.Data.Finset.Basic
import Mathlib.Data.Finset.Dedup
import Mathlib.Data.List.Perm.Basic

/-!
# Inventories of handles

A program gets handles from its environment and gives them back.  The environment has a table of the
handles that are out; the program has an inventory of those it knows, each of them once.
`Accounted` says that the two agree: a handle that is in the table but not in the inventory is lost,
and giving back one that is not in the table is giving it back twice.

The rules say what keeps them in agreement: a new handle is put into the inventory
(`Accounted.get`), and what is given back is taken out of it (`Accounted.giveBack`).
-/

namespace Inventory

/-- The inventory has each handle of the table once, and nothing else. -/
structure Accounted {η : Type*} [DecidableEq η] (inventory : List η) (table : Finset η) : Prop where
  nodup : inventory.Nodup
  table_eq : table = inventory.toFinset

namespace Accounted

variable {η : Type*} [DecidableEq η] {inventory inventory' : List η} {table : Finset η}

lemma empty : Accounted ([] : List η) ∅ := ⟨List.nodup_nil, rfl⟩

lemma mem_iff (h : Accounted inventory table) {x : η} : x ∈ table ↔ x ∈ inventory := by
  rw [h.table_eq, List.mem_toFinset]

/-- The order of the inventory does not matter. -/
lemma perm (h : Accounted inventory table) (hperm : inventory'.Perm inventory) :
    Accounted inventory' table :=
  ⟨hperm.nodup_iff.mpr h.nodup, h.table_eq.trans (List.toFinset_eq_of_perm _ _ hperm.symm)⟩

/-- A handle that is not out is handed out. -/
lemma get (h : Accounted inventory table) {x : η} (hx : x ∉ table) :
    Accounted (x :: inventory) (insert x table) := by
  refine ⟨List.nodup_cons.mpr ⟨fun hmem => hx (h.mem_iff.mpr hmem), h.nodup⟩, ?_⟩
  rw [h.table_eq, List.toFinset_cons]

/-- Handles of the inventory are given back: all of them were out, and each is given back once. -/
lemma giveBack {back rest : List η} (h : Accounted (back ++ rest) table) :
    back.Nodup ∧ (∀ x ∈ back, x ∈ table) ∧ Accounted rest (table \ back.toFinset) := by
  obtain ⟨hback, hrest, hdisjoint⟩ := List.nodup_append.mp h.nodup
  refine ⟨hback, fun x hx => h.mem_iff.mpr (List.mem_append_left _ hx), hrest, ?_⟩
  ext x
  rw [Finset.mem_sdiff, h.mem_iff, List.mem_append, List.mem_toFinset, List.mem_toFinset]
  constructor
  · rintro ⟨hmem | hmem, hnot⟩
    · exact absurd hmem hnot
    · exact hmem
  · intro hmem
    exact ⟨.inr hmem, fun hx => hdisjoint x hx x hmem rfl⟩

end Accounted

end Inventory
