import Mathlib.Tactic.Common

/-!
# Separated texts

Lines end with a mark and fields have one between them.  If the mark does not occur in the parts,
splitting at it gives the parts back, and after the last end mark an empty part.
-/

namespace Separated

variable {α : Type*}

/-- What occurs in separated parts is the mark or occurs in a part. -/
lemma mem_intercalate {mark a : α} {parts : List (List α)} (h : a ∈ [mark].intercalate parts) :
    a = mark ∨ ∃ part ∈ parts, a ∈ part := by
  induction parts with
  | nil => cases h
  | cons part parts ih =>
    rcases parts with - | ⟨part', parts⟩
    · rw [List.intercalate_singleton] at h
      exact .inr ⟨part, List.mem_cons_self .., h⟩
    · rw [List.intercalate_cons_cons, List.mem_append, List.mem_append,
        List.mem_singleton] at h
      rcases h with (hpart | hmark) | hparts
      · exact .inr ⟨part, List.mem_cons_self .., hpart⟩
      · exact .inl hmark
      · rcases ih hparts with hmark | ⟨later, hlater, ha⟩
        · exact .inl hmark
        · exact .inr ⟨later, List.mem_cons_of_mem _ hlater, ha⟩

/-- The parts, each with an end mark. -/
def terminated (mark : α) (parts : List (List α)) : List α := parts.flatMap (· ++ [mark])

/-- End marks stand between the parts and an empty one. -/
lemma terminated_eq (mark : α) (parts : List (List α)) :
    terminated mark parts = [mark].intercalate (parts ++ [[]]) := by
  induction parts with
  | nil => rfl
  | cons part parts ih =>
    have hcons : terminated mark (part :: parts) = part ++ [mark] ++ terminated mark parts := rfl
    rw [hcons, ih]
    rcases parts with - | ⟨part', parts⟩
    · exact List.intercalate_cons_cons.symm
    · exact List.intercalate_cons_cons.symm

lemma splitOn_terminated [BEq α] [LawfulBEq α] {mark : α} {parts : List (List α)}
    (h : ∀ part ∈ parts, mark ∉ part) :
    (terminated mark parts).splitOn mark = parts ++ [[]] := by
  rw [terminated_eq]
  refine List.splitOn_intercalate mark (fun part hpart => ?_) (by simp)
  rcases List.mem_append.mp hpart with hpart | hpart
  · exact h part hpart
  · rw [List.mem_singleton.mp hpart]
    exact List.not_mem_nil

end Separated
