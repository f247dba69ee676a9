import Mathlib.Data.List.Infix
import Mathlib.Tactic.Common

/-!
# Runs of a machine with outputs

A machine reads one input at a time, moves to a new state and emits a finite list of
outputs.  `run` folds it over a list of inputs and concatenates what it emits.

The rules of this file turn one-step facts into facts about whole runs: `run_invariant` for
invariants, `run_simulation` for a relation between two machines that read the same inputs,
`run_refines` for a machine each of whose steps is a run of a coarser one, `run_project` for a part
of a machine that is a machine of its own, `run_map` for a translation of one machine into another,
`Logs.replay` for a machine whose outputs tell its inputs, and `along_iff_forall_prefix` and
`along_iff_run` for a property that a step keeps exactly when the step meets a condition.
`Along ok s is` says that every step of the run from `s` on `is` meets the condition `ok` on the
state before the step and its input.
-/

namespace Mealy

variable {σ τ ι ο : Type*}

/-- Run a machine over a list of inputs: the last state and all the outputs in order. -/
def run (step : σ → ι → σ × List ο) : σ → List ι → σ × List ο
  | s, [] => (s, [])
  | s, i :: is => ((run step (step s i).1 is).1, (step s i).2 ++ (run step (step s i).1 is).2)

/-- Every step of the run from `s` on the given inputs satisfies `ok`, which sees the state
before the step and the input read there. -/
def Along (step : σ → ι → σ × List ο) (ok : σ → ι → Prop) : σ → List ι → Prop
  | _, [] => True
  | s, i :: is => ok s i ∧ Along step ok (step s i).1 is

/-- The sum over the steps of a run of an amount that depends on the state before the step and
the input read there. -/
def tally {G : Type*} [Add G] [Zero G] (step : σ → ι → σ × List ο) (cost : σ → ι → G) :
    σ → List ι → G
  | _, [] => 0
  | s, i :: is => cost s i + tally step cost (step s i).1 is

variable {step : σ → ι → σ × List ο}

@[simp] lemma run_nil (s : σ) : run step s [] = (s, []) := rfl

@[simp] lemma run_cons_fst (s : σ) (i : ι) (is : List ι) :
    (run step s (i :: is)).1 = (run step (step s i).1 is).1 := rfl

@[simp] lemma run_cons_snd (s : σ) (i : ι) (is : List ι) :
    (run step s (i :: is)).2 = (step s i).2 ++ (run step (step s i).1 is).2 := rfl

/-- A run over `is ++ js` ends where the run over `js` from the end of the run over `is` does. -/
lemma run_append_fst (s : σ) (is js : List ι) :
    (run step s (is ++ js)).1 = (run step (run step s is).1 js).1 := by
  induction is generalizing s with
  | nil => rfl
  | cons i is ih => exact ih (step s i).1

/-- The outputs of a run over `is ++ js` are those of its two parts, in order. -/
lemma run_append_snd (s : σ) (is js : List ι) :
    (run step s (is ++ js)).2 = (run step s is).2 ++ (run step (run step s is).1 js).2 := by
  induction is generalizing s with
  | nil => rfl
  | cons i is ih =>
    rw [List.cons_append, run_cons_snd, ih, run_cons_snd, run_cons_fst, List.append_assoc]

/-- The last step of a run. -/
lemma run_concat_fst (s : σ) (is : List ι) (i : ι) :
    (run step s (is ++ [i])).1 = (step (run step s is).1 i).1 := by
  rw [run_append_fst]
  rfl

/-- The outputs of the last step of a run come last. -/
lemma run_concat_snd (s : σ) (is : List ι) (i : ι) :
    (run step s (is ++ [i])).2 = (run step s is).2 ++ (step (run step s is).1 i).2 := by
  rw [run_append_snd]
  simp

@[simp] lemma tally_nil {G : Type*} [Add G] [Zero G] {cost : σ → ι → G} (s : σ) :
    tally step cost s [] = 0 := rfl

@[simp] lemma tally_cons {G : Type*} [Add G] [Zero G] {cost : σ → ι → G} (s : σ) (i : ι)
    (is : List ι) :
    tally step cost s (i :: is) = cost s i + tally step cost (step s i).1 is := rfl

/-! ## Conditions on every step -/

variable {ok : σ → ι → Prop}

@[simp] lemma along_nil (s : σ) : Along step ok s [] := trivial

@[simp] lemma along_cons {s : σ} {i : ι} {is : List ι} :
    Along step ok s (i :: is) ↔ ok s i ∧ Along step ok (step s i).1 is := Iff.rfl

instance [∀ s i, Decidable (ok s i)] : ∀ s is, Decidable (Along step ok s is)
  | _, [] => isTrue trivial
  | s, i :: is =>
    have : Decidable (Along step ok (step s i).1 is) := instDecidableAlong (step s i).1 is
    inferInstanceAs (Decidable (ok s i ∧ Along step ok (step s i).1 is))

/-- A condition holds along a concatenation when it holds along both parts. -/
lemma along_append {s : σ} {is js : List ι} :
    Along step ok s (is ++ js) ↔ Along step ok s is ∧ Along step ok (run step s is).1 js := by
  induction is generalizing s with
  | nil => simp
  | cons i is ih => rw [List.cons_append, along_cons, along_cons, ih, and_assoc]; rfl

/-- A condition that holds along a run holds along each of its beginnings. -/
lemma Along.of_prefix {s : σ} {is js : List ι} (h : Along step ok s js) (hp : is <+: js) :
    Along step ok s is := by
  obtain ⟨t, rfl⟩ := hp
  exact (along_append.mp h).1

/-- A weaker condition holds along the same run. -/
lemma Along.mono {ok' : σ → ι → Prop} {s : σ} {is : List ι} (h : Along step ok s is)
    (hok : ∀ s i, ok s i → ok' s i) : Along step ok' s is := by
  induction is generalizing s with
  | nil => trivial
  | cons i is ih => exact ⟨hok s i h.1, ih h.2⟩

/-! ## Invariants and simulations -/

/-- A property kept by every step holds at the end of every run. -/
theorem run_invariant {P : σ → Prop} (hstep : ∀ s i, P s → P (step s i).1) {s : σ} (hs : P s)
    (is : List ι) : P (run step s is).1 := by
  induction is generalizing s with
  | nil => exact hs
  | cons i is ih => exact ih (hstep s i hs)

/-- What follows from an invariant holds along every run. -/
theorem along_of_invariant {P : σ → Prop} (hstep : ∀ s i, P s → P (step s i).1)
    (hok : ∀ s i, P s → ok s i) {s : σ} (hs : P s) (is : List ι) : Along step ok s is := by
  induction is generalizing s with
  | nil => trivial
  | cons i is ih => exact ⟨hok s i hs, ih (hstep s i hs)⟩

/-- A preorder that every step climbs is climbed from the end of a run to the end of every longer
one. -/
theorem run_climbs {R : σ → σ → Prop} (hrefl : ∀ s, R s s) (htrans : ∀ a b c, R a b → R b c → R a c)
    (hstep : ∀ s i, R s (step s i).1) (s : σ) {is js : List ι} (h : is <+: js) :
    R (run step s is).1 (run step s js).1 := by
  obtain ⟨rest, rfl⟩ := h
  rw [run_append_fst]
  exact run_invariant (fun s' i hs' => htrans _ _ _ hs' (hstep s' i)) (hrefl _) rest

/-- Where inputs keep a transitive relation and only lead down in it, one who misses some of the
inputs ends up no lower. -/
theorem foldl_missed {f : σ → ι → σ} {R : σ → σ → Prop} (htrans : ∀ a b c, R a b → R b c → R a c)
    {seen is : List ι} (h : seen.Sublist is) (hkeeps : ∀ i ∈ is, ∀ s t, R s t → R (f s i) (f t i))
    (hdown : ∀ i ∈ is, ∀ s, R (f s i) s) {s t : σ} (hst : R s t) :
    R (is.foldl f s) (seen.foldl f t) := by
  induction h generalizing s t with
  | slnil => exact hst
  | cons i _ ih =>
    rw [List.forall_mem_cons] at hkeeps hdown
    exact ih hkeeps.2 hdown.2 (htrans _ _ _ (hdown.1 s) hst)
  | cons_cons i _ ih =>
    rw [List.forall_mem_cons] at hkeeps hdown
    exact ih hkeeps.2 hdown.2 (hkeeps.1 s t hst)

/-- Two machines whose related states stay related and emit the same outputs, on inputs that
meet `ok`, emit the same outputs on every run whose inputs all meet `ok`, and end related. -/
theorem run_simulation {step' : τ → ι → τ × List ο} {R : σ → τ → Prop}
    (hstep : ∀ s t i, R s t → ok s i →
      R (step s i).1 (step' t i).1 ∧ (step s i).2 = (step' t i).2)
    {s : σ} {t : τ} {is : List ι} (hst : R s t) (his : Along step ok s is) :
    R (run step s is).1 (run step' t is).1 ∧ (run step s is).2 = (run step' t is).2 := by
  induction is generalizing s t with
  | nil => exact ⟨hst, rfl⟩
  | cons i is ih =>
    obtain ⟨hnext, hout⟩ := hstep s t i hst his.1
    obtain ⟨hend, houts⟩ := ih hnext his.2
    refine ⟨hend, ?_⟩
    rw [run_cons_snd, run_cons_snd, hout, houts]

/-- If every step of a machine is, seen through `abs` and `see`, a run of a coarser machine, of no,
one or several steps, then so is every run.  The steps may rest on an invariant. -/
theorem run_refines {κ ο' : Type*} {step' : τ → κ → τ × List ο'} {abs : σ → τ} {see : ο → Option ο'}
    {I : σ → Prop} (hinv : ∀ s i, I s → I (step s i).1)
    (hstep : ∀ s i, I s →
      ∃ js, run step' (abs s) js = (abs (step s i).1, (step s i).2.filterMap see))
    {s : σ} (hs : I s) (is : List ι) :
    ∃ js, run step' (abs s) js = (abs (run step s is).1, (run step s is).2.filterMap see) := by
  induction is generalizing s with
  | nil => exact ⟨[], rfl⟩
  | cons i is ih =>
    obtain ⟨js, hjs⟩ := hstep s i hs
    obtain ⟨js', hjs'⟩ := ih (hinv s i hs)
    refine ⟨js ++ js', Prod.ext ?_ ?_⟩
    · rw [run_append_fst, hjs, hjs']
      rfl
    · rw [run_append_snd, hjs, hjs', run_cons_snd, List.filterMap_append]

/-- If a step from a good state leads to a good state exactly when it meets `ok`, then all the
states of a run are good exactly when all its steps meet `ok`. -/
theorem along_iff_forall_prefix {Q : σ → Prop}
    (hstep : ∀ s i, Q s → (Q (step s i).1 ↔ ok s i)) {s : σ} (hs : Q s) (is : List ι) :
    Along step ok s is ↔ ∀ pre, pre <+: is → Q (run step s pre).1 := by
  induction is generalizing s with
  | nil =>
    refine ⟨fun _ pre hpre => ?_, fun _ => trivial⟩
    rw [List.prefix_nil.mp hpre]
    exact hs
  | cons i is ih =>
    constructor
    · rintro ⟨hi, his⟩ pre hpre
      rcases List.prefix_cons_iff.mp hpre with rfl | ⟨t, rfl, ht⟩
      · exact hs
      · exact (ih ((hstep s i hs).mpr hi)).mp his t ht
    · intro h
      have hnext : Q (step s i).1 := h [i] ⟨is, rfl⟩
      refine ⟨(hstep s i hs).mp hnext, (ih hnext).mpr fun pre hpre => ?_⟩
      exact h (i :: pre) ((List.prefix_cons_inj i).mpr hpre)

/-- If a step leads to a good state exactly when it starts in one and meets `ok`, then a run from a
good state ends in a good state exactly when all its steps meet `ok`.  The equivalence may rest on
an invariant of the machine. -/
theorem along_iff_run {I Q : σ → Prop} (hinv : ∀ s i, I s → I (step s i).1)
    (hstep : ∀ s i, I s → (Q (step s i).1 ↔ Q s ∧ ok s i)) {s : σ} (hI : I s) (is : List ι) :
    Q (run step s is).1 ↔ Q s ∧ Along step ok s is := by
  induction is generalizing s with
  | nil => exact (and_iff_left trivial).symm
  | cons i is ih =>
    rw [run_cons_fst, ih (hinv s i hI), hstep s i hI, along_cons, and_assoc]

/-- If a part of a machine moves on its own inputs as a machine of its own, emitting what is seen
of the outputs, and rests unseen on all others, then in every run the part is in the state, and
what is seen of the outputs is the list, that its own machine gives on its own inputs. -/
theorem run_project {step' : τ → ι → τ × List ο} (part : σ → τ) {own : ι → Bool} {seen : ο → Bool}
    (hown : ∀ s i, own i = true →
      part (step s i).1 = (step' (part s) i).1 ∧ (step s i).2.filter seen = (step' (part s) i).2)
    (hother : ∀ s i, own i = false → part (step s i).1 = part s ∧ (step s i).2.filter seen = [])
    (s : σ) (is : List ι) :
    part (run step s is).1 = (run step' (part s) (is.filter own)).1 ∧
      (run step s is).2.filter seen = (run step' (part s) (is.filter own)).2 := by
  induction is generalizing s with
  | nil => exact ⟨rfl, rfl⟩
  | cons i is ih =>
    obtain ⟨hstate, hout⟩ := ih (step s i).1
    rw [run_cons_fst, run_cons_snd, List.filter_append]
    cases hi : own i with
    | true =>
      obtain ⟨hpart, hseen⟩ := hown s i hi
      rw [List.filter_cons_of_pos hi, run_cons_fst, run_cons_snd, ← hpart, ← hseen]
      exact ⟨hstate, congrArg (_ ++ ·) hout⟩
    | false =>
      obtain ⟨hpart, hseen⟩ := hother s i hi
      rw [List.filter_cons_of_neg (by rw [hi]; exact Bool.false_ne_true), hseen, List.nil_append,
        ← hpart]
      exact ⟨hstate, hout⟩

/-- If a step commutes with translations of the states, the inputs and the outputs, then so does
every run. -/
theorem run_map {ι' ο' : Type*} {step' : τ → ι' → τ × List ο'} {f : σ → τ} {g : ι → ι'} {h : ο → ο'}
    (hstep : ∀ s i, step' (f s) (g i) = (f (step s i).1, (step s i).2.map h)) (s : σ)
    (is : List ι) :
    run step' (f s) (is.map g) = (f (run step s is).1, (run step s is).2.map h) := by
  induction is generalizing s with
  | nil => rfl
  | cons i is ih =>
    rw [List.map_cons, run, hstep, ih, run, List.map_append]

/-! ## Machines that log their inputs -/

/-- Every step emits its input first, and nothing else that it emits is read as an input. -/
def Logs (step : σ → ι → σ × List ο) (read? : ο → Option ι) : Prop :=
  ∀ s i, ∃ o rest, (step s i).2 = o :: rest ∧ read? o = some i ∧ ∀ o' ∈ rest, read? o' = none

/-- The inputs are read off the outputs. -/
lemma Logs.filterMap_run {read? : ο → Option ι} (h : Logs step read?) (s : σ) (is : List ι) :
    (run step s is).2.filterMap read? = is := by
  induction is generalizing s with
  | nil => rfl
  | cons i is ih =>
    obtain ⟨o, rest, hout, hread, hrest⟩ := h s i
    rw [run_cons_snd, List.filterMap_append, ih, hout, List.filterMap_cons_some hread,
      List.filterMap_eq_nil_iff.mpr hrest]
    rfl

/-- From a beginning of the outputs a beginning of the inputs is read, and a run on that emits at
least as much. -/
theorem Logs.replay {read? : ο → Option ι} (h : Logs step read?) (s : σ) (is : List ι)
    {heard : List ο} (hheard : heard <+: (run step s is).2) :
    heard.filterMap read? <+: is ∧ heard <+: (run step s (heard.filterMap read?)).2 := by
  induction is generalizing s heard with
  | nil =>
    obtain rfl := List.prefix_nil.mp hheard
    exact ⟨List.nil_prefix, List.nil_prefix⟩
  | cons i is ih =>
    obtain ⟨o, rest, hout, hread, hrest⟩ := h s i
    rw [run_cons_snd, hout, List.cons_append] at hheard
    rcases List.prefix_cons_iff.mp hheard with rfl | ⟨heard, rfl, htail⟩
    · exact ⟨List.nil_prefix, List.nil_prefix⟩
    rw [List.filterMap_cons_some hread, run_cons_snd, hout, List.cons_append,
      List.prefix_cons_inj, List.prefix_cons_inj]
    -- either the first step is not over yet, or all that it emits was heard
    rcases List.prefix_or_prefix_of_prefix htail (List.prefix_append _ _) with hpart | ⟨more, rfl⟩
    · rw [List.filterMap_eq_nil_iff.mpr fun o' ho' => hrest o' (hpart.subset ho')]
      exact ⟨List.nil_prefix, hpart.trans (List.prefix_append _ _)⟩
    · rw [List.filterMap_append, List.filterMap_eq_nil_iff.mpr hrest, List.nil_append,
        List.prefix_append_right_inj]
      exact ih (step s i).1 ((List.prefix_append_right_inj _).mp htail)

end Mealy
