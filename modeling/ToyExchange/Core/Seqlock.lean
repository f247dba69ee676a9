import ToyExchange.Foundations.Mealy
import Mathlib.Data.Fintype.Defs
import Mathlib.Data.Fintype.Pi
import Mathlib.Algebra.Group.Nat.Defs
import Mathlib.Logic.Function.Basic

/-!
# The seqlock

One thread stores a value of several words and any number of threads load it, without a lock: a
counter is odd while a store is in progress, and a load that has seen an odd counter, or two
different ones, tries again.

The threads are a machine whose inputs say which thread makes its next access to memory; each
access, to the counter or to one word of the value, is one step.  The words are copied in any order.
An access that the thread is not about to make leaves the machine as it is.  `Observed` is what an
observer of the calls and returns knows: the values of the completed stores, and for each completed
load how many stores were complete when it started and when it ended.

The counter of the lock is a 64-bit word.  `System.counter` is the true number of its increments:
two for each completed store and one more while a store copies.  A load succeeds if it has found the
same even word twice, and unless `2 ^ 63` stores were completed meanwhile it is then the same number
that it has found twice, so that no store has copied a word in between (`eq_of_mod_eq`).  What a
load in progress has seen is the invariant `ReaderOk`, and `load_returns_last_store` follows.
-/

namespace ToyExchange

/-- The storage of a seqlock: the counter, a 64-bit word, and the words of the value. -/
structure Seqlock (ι W : Type*) where
  sequence : ℕ
  value : ι → W

namespace Seqlock

/-- Where the thread that stores stands. -/
inductive Writer (ι W : Type*) where
  | idle
  /-- In `Store`, after the counter was loaded. -/
  | loaded (seq : ℕ) (value : ι → W)
  /-- In `Store`, between the two stores to the counter; `written` are the words that were
  copied. -/
  | copying (seq : ℕ) (value : ι → W) (written : ι → Bool)

/-- Where a thread that loads stands. -/
inductive Reader (ι W : Type*) where
  | idle
  /-- In `Load`, after the counter was loaded; `words` are the words that were copied. -/
  | copying (before : ℕ) (words : ι → Option W)
  /-- In `Load`, at the start of the loop again. -/
  | retrying

/-- A seqlock, the thread that stores and the threads `R` that load. -/
structure System (ι W R : Type*) where
  lock : Seqlock ι W
  writer : Writer ι W
  readers : R → Reader ι W

/-- The next access of a thread. -/
inductive Access (ι W R : Type*) where
  /-- `Store` is called and loads the counter. -/
  | loadSequence (value : ι → W)
  /-- `Store` makes the counter odd. -/
  | storeOdd
  /-- `Store` copies a word. -/
  | writeWord (i : ι)
  /-- `Store` makes the counter even and returns. -/
  | storeEven
  /-- `Load` loads the counter at the start of its loop; it is called if it is not running. -/
  | loadBefore (r : R)
  /-- `Load` copies a word. -/
  | readWord (r : R) (i : ι)
  /-- `Load` loads the counter at the end of its loop, and returns or goes on. -/
  | loadAfter (r : R)

/-- What an observer sees. -/
inductive Event (ι W R : Type*) where
  /-- A store is complete. -/
  | stored (value : ι → W)
  /-- A load has made its first access. -/
  | began (r : R)
  /-- A load has returned. -/
  | returned (r : R) (value : ι → W)

variable {ι W R : Type*}

namespace System

/-- A new seqlock that nobody uses. -/
def initial (init : ι → W) : System ι W R := ⟨⟨0, init⟩, .idle, fun _ => .idle⟩

/-- A thread that loads has moved. -/
def setReader [DecidableEq R] (s : System ι W R) (r : R) (reader : Reader ι W) : System ι W R :=
  { s with readers := Function.update s.readers r reader }

@[simp] lemma readers_setReader_self [DecidableEq R] (s : System ι W R) (r : R)
    (reader : Reader ι W) : (s.setReader r reader).readers r = reader :=
  Function.update_self ..

/-- One access. -/
def step [Fintype ι] [DecidableEq ι] [DecidableEq R] (s : System ι W R) :
    Access ι W R → System ι W R × List (Event ι W R)
  | .loadSequence value =>
    match s.writer with
    | .idle => ({ s with writer := .loaded s.lock.sequence value }, [])
    | _ => (s, [])
  | .storeOdd =>
    match s.writer with
    | .loaded seq value =>
      ({ s with
        lock := { s.lock with sequence := (seq + 1) % 2 ^ 64 }
        writer := .copying seq value fun _ => false }, [])
    | _ => (s, [])
  | .writeWord i =>
    match s.writer with
    | .copying seq value written =>
      if written i then (s, [])
      else
        ({ s with
          lock := { s.lock with value := Function.update s.lock.value i (value i) }
          writer := .copying seq value (Function.update written i true) }, [])
    | _ => (s, [])
  | .storeEven =>
    match s.writer with
    | .copying seq value written =>
      if ∀ i, written i then
        ({ s with
          lock := { s.lock with sequence := (seq + 2) % 2 ^ 64 }
          writer := .idle }, [.stored value])
      else (s, [])
    | _ => (s, [])
  | .loadBefore r =>
    match s.readers r with
    | .idle => (s.setReader r (.copying s.lock.sequence fun _ => none), [.began r])
    | .retrying => (s.setReader r (.copying s.lock.sequence fun _ => none), [])
    | .copying _ _ => (s, [])
  | .readWord r i =>
    match s.readers r with
    | .copying before words =>
      if (words i).isSome then (s, [])
      else
        (s.setReader r (.copying before (Function.update words i (some (s.lock.value i)))), [])
    | _ => (s, [])
  | .loadAfter r =>
    match s.readers r with
    | .copying before words =>
      if h : ∀ i, (words i).isSome then
        if before ≠ s.lock.sequence ∨ before % 2 ≠ 0 then (s.setReader r .retrying, [])
        else (s.setReader r .idle, [.returned r fun i => (words i).get (h i)])
      else (s, [])
    | _ => (s, [])

end System

/-! ## What an observer knows -/

/-- A completed load: who has made it, how many stores were complete when it started and when it
ended, and what it has returned. -/
structure LoadRecord (ι W R : Type*) where
  reader : R
  startedAt : ℕ
  endedAt : ℕ
  result : ι → W

/-- What an observer of the calls and returns knows. -/
structure Observed (ι W R : Type*) where
  /-- The values of the completed stores, in order. -/
  stores : List (ι → W)
  /-- How many stores were complete when the last load of a thread has started. -/
  started : R → ℕ
  /-- The completed loads, in order. -/
  loads : List (LoadRecord ι W R)

namespace Observed

/-- Nothing has happened. -/
def initial : Observed ι W R := ⟨[], fun _ => 0, []⟩

/-- The observer sees an event. -/
def observe [DecidableEq R] (o : Observed ι W R) : Event ι W R → Observed ι W R
  | .stored value => { o with stores := o.stores ++ [value] }
  | .began r => { o with started := Function.update o.started r o.stores.length }
  | .returned r value =>
    { o with loads := o.loads ++ [⟨r, o.started r, o.stores.length, value⟩] }

/-- What an observer of the events knows in the end. -/
def ofEvents [DecidableEq R] (events : List (Event ι W R)) : Observed ι W R :=
  events.foldl observe initial

end Observed

/-- The value of the last of the first `k` stores, the initial value if `k` is zero. -/
def valueAfter (init : ι → W) (stores : List (ι → W)) (k : ℕ) : ι → W :=
  (stores.take k).getLast?.getD init

/-- A later store does not change what was stored before. -/
lemma valueAfter_append (init : ι → W) {stores : List (ι → W)} {k : ℕ} (hk : k ≤ stores.length)
    (value : ι → W) : valueAfter init (stores ++ [value]) k = valueAfter init stores k := by
  unfold valueAfter
  rw [List.take_append_of_le_length hk]

/-! ## The invariant -/

/-- The value of the last completed store. -/
def Observed.current (o : Observed ι W R) (init : ι → W) : ι → W :=
  valueAfter init o.stores o.stores.length

/-- The true number of increments of the counter. -/
def System.counter (s : System ι W R) (o : Observed ι W R) : ℕ :=
  match s.writer with
  | .copying _ _ _ => 2 * o.stores.length + 1
  | _ => 2 * o.stores.length

/-- The counter depends on the thread that stores only. -/
lemma System.counter_setReader [DecidableEq R] (s : System ι W R) (r : R) (reader : Reader ι W)
    {o o' : Observed ι W R} (hstores : o'.stores = o.stores) :
    (s.setReader r reader).counter o' = s.counter o := by
  unfold System.counter
  rw [hstores]
  rfl

/-- What the seqlock holds. -/
structure WriterOk (init : ι → W) (s : System ι W R) (o : Observed ι W R) : Prop where
  /-- The counter is the true number of its increments, modulo the size of the word. -/
  sequence : s.lock.sequence = s.counter o % 2 ^ 64
  /-- Unless a store copies, the value is that of the last completed store. -/
  stable : s.counter o % 2 = 0 → s.lock.value = o.current init
  /-- A store works with the counter of the seqlock. -/
  loaded : ∀ seq value, s.writer = .loaded seq value → seq = s.lock.sequence
  /-- The words that a store has copied are those of its value. -/
  copied : ∀ seq value written, s.writer = .copying seq value written →
    seq = 2 * o.stores.length % 2 ^ 64 ∧ ∀ i, written i → s.lock.value i = value i

/-- What a load in progress has seen. -/
structure ReaderOk (init : ι → W) (s : System ι W R) (o : Observed ι W R) (r : R) : Prop where
  /-- It has started after the earlier loads of the thread. -/
  since : s.readers r ≠ .idle → o.started r ≤ o.stores.length ∧
    ∀ load ∈ o.loads, load.reader = r → load.endedAt ≤ o.started r
  /-- The counter was loaded after the load has started; if no store has copied since then, the
  words are those of the last completed store. -/
  copied : ∀ before words, s.readers r = .copying before words →
    ∃ c, before = c % 2 ^ 64 ∧ 2 * o.started r ≤ c ∧ c ≤ s.counter o ∧
      (c = s.counter o → c % 2 = 0 → ∀ i w, words i = some w → w = o.current init i)

/-- What the completed loads have returned. -/
structure LoadsOk (init : ι → W) (o : Observed ι W R) : Prop where
  returned : ∀ load ∈ o.loads, load.startedAt ≤ load.endedAt ∧ load.endedAt ≤ o.stores.length ∧
    (load.endedAt - load.startedAt < 2 ^ 63 →
      load.result = valueAfter init o.stores load.endedAt)
  in_order : o.loads.Pairwise fun load later =>
    load.reader = later.reader → load.endedAt ≤ later.startedAt

/-- The invariant of a run. -/
structure Consistent (init : ι → W) (s : System ι W R) (o : Observed ι W R) : Prop where
  writer : WriterOk init s o
  readers : ∀ r, ReaderOk init s o r
  loads : LoadsOk init o

section Invariant

variable {init : ι → W} {s s' : System ι W R} {o o' : Observed ι W R} {r : R}

lemma consistent_initial : Consistent init (System.initial init : System ι W R) .initial := by
  refine ⟨⟨rfl, fun _ => rfl, ?_, ?_⟩, fun r => ⟨fun h => absurd rfl h, ?_⟩,
    ⟨?_, List.Pairwise.nil⟩⟩
  · intro seq value h
    cases h
  · intro seq value written h
    cases h
  · intro before words h
    cases h
  · intro load h
    cases h

/-- A load in progress is not concerned by accesses of other threads: the counter only grows, and
as long as it does not, the last completed store is the same. -/
lemma ReaderOk.mono (h : ReaderOk init s o r) (hreader : s'.readers r = s.readers r)
    (hstarted : o'.started r = o.started r)
    (hloads : ∀ load ∈ o'.loads, load.reader = r → load ∈ o.loads)
    (hstores : o.stores.length ≤ o'.stores.length) (hcounter : s.counter o ≤ s'.counter o')
    (hcurrent : s.counter o = s'.counter o' → o'.current init = o.current init) :
    ReaderOk init s' o' r where
  since hbusy := by
    rw [hreader] at hbusy
    obtain ⟨hstart, hearlier⟩ := h.since hbusy
    rw [hstarted]
    exact ⟨hstart.trans hstores, fun load hload hr => hearlier load (hloads load hload hr) hr⟩
  copied before words hcopying := by
    rw [hreader] at hcopying
    obtain ⟨c, hbefore, hstart, hle, hwords⟩ := h.copied before words hcopying
    refine ⟨c, hbefore, hstarted ▸ hstart, hle.trans hcounter, ?_⟩
    intro hc heven i w hw
    have hsame : s.counter o = s'.counter o' := le_antisymm hcounter (hc ▸ hle)
    rw [hcurrent hsame]
    exact hwords (hc.trans hsame.symm) heven i w hw

/-- The seqlock is not concerned by the threads that load. -/
lemma WriterOk.congr (h : WriterOk init s o) (hlock : s'.lock = s.lock)
    (hwriter : s'.writer = s.writer) (hstores : o'.stores = o.stores) : WriterOk init s' o' := by
  have hcounter : s'.counter o' = s.counter o := by
    unfold System.counter
    rw [hwriter, hstores]
  have hcurrent : o'.current init = o.current init := by
    unfold Observed.current
    rw [hstores]
  refine ⟨?_, ?_, ?_, ?_⟩
  · rw [hlock, hcounter]
    exact h.sequence
  · rw [hlock, hcounter, hcurrent]
    exact h.stable
  · rw [hlock, hwriter]
    exact h.loaded
  · rw [hlock, hwriter, hstores]
    exact h.copied

/-- Two words that are equal stand for the same number if the numbers are close. -/
lemma eq_of_mod_eq {c d m k : ℕ} (hle : c ≤ d) (hlow : 2 * m ≤ c) (hhigh : d ≤ 2 * k + 1)
    (hclose : k - m < 2 ^ 63) (hmod : c % 2 ^ 64 = d % 2 ^ 64) : c = d := by
  omega

/-- Accesses of the thread that stores. -/
lemma Consistent.of_writer (h : Consistent init s o) (hwriter : WriterOk init s' o')
    (hloads : LoadsOk init o') (hreaders : s'.readers = s.readers)
    (hstarted : o'.started = o.started) (hsame : o'.loads = o.loads)
    (hstores : o.stores.length ≤ o'.stores.length) (hcounter : s.counter o ≤ s'.counter o')
    (hcurrent : s.counter o = s'.counter o' → o'.current init = o.current init) :
    Consistent init s' o' where
  writer := hwriter
  readers r := (h.readers r).mono (by rw [hreaders]) (by rw [hstarted])
    (fun load hload _ => hsame ▸ hload) hstores hcounter hcurrent
  loads := hloads

end Invariant

section Steps

variable {init : ι → W} {s : System ι W R} {o : Observed ι W R}

/-- Accesses of a thread that loads. -/
lemma Consistent.of_reader [DecidableEq R] (h : Consistent init s o) {r : R} {reader : Reader ι W}
    {o' : Observed ι W R} (hreader : ReaderOk init (s.setReader r reader) o' r)
    (hloads : LoadsOk init o') (hstores : o'.stores = o.stores)
    (hothers : ∀ r', r' ≠ r → o'.started r' = o.started r' ∧
      ∀ load ∈ o'.loads, load.reader = r' → load ∈ o.loads) :
    Consistent init (s.setReader r reader) o' where
  writer := h.writer.congr rfl rfl hstores
  readers r' := by
    by_cases hr : r' = r
    · rw [hr]
      exact hreader
    · obtain ⟨hstarted, hold⟩ := hothers r' hr
      refine (h.readers r').mono (Function.update_of_ne hr ..) hstarted hold (by rw [hstores])
        (s.counter_setReader r reader hstores).ge ?_
      intro _
      unfold Observed.current
      rw [hstores]
  loads := hloads

/-- `Store` loads the counter. -/
lemma consistent_loadSequence (h : Consistent init s o) (hwriter : s.writer = .idle)
    (value : ι → W) :
    Consistent init { s with writer := .loaded s.lock.sequence value } o := by
  have hcounter : s.counter o =
      System.counter { s with writer := .loaded s.lock.sequence value } o := by
    unfold System.counter
    rw [hwriter]
  refine h.of_writer ⟨?_, ?_, ?_, ?_⟩ h.loads rfl rfl rfl le_rfl hcounter.le fun _ => rfl
  · rw [← hcounter]
    exact h.writer.sequence
  · rw [← hcounter]
    exact h.writer.stable
  · intro seq value' hloaded
    cases hloaded
    rfl
  · intro seq value' written hcopying
    cases hcopying

/-- `Store` makes the counter odd. -/
lemma consistent_storeOdd (h : Consistent init s o) {seq : ℕ} {value : ι → W}
    (hwriter : s.writer = .loaded seq value) :
    Consistent init
      { s with
        lock := { s.lock with sequence := (seq + 1) % 2 ^ 64 }
        writer := .copying seq value fun _ => false } o := by
  have hcounter : s.counter o = 2 * o.stores.length := by
    unfold System.counter
    rw [hwriter]
  have hseq : seq = 2 * o.stores.length % 2 ^ 64 := by
    rw [h.writer.loaded seq value hwriter, h.writer.sequence, hcounter]
  refine h.of_writer ⟨?_, ?_, ?_, ?_⟩ h.loads rfl rfl rfl le_rfl ?_ fun _ => rfl
  · change (seq + 1) % 2 ^ 64 = (2 * o.stores.length + 1) % 2 ^ 64
    omega
  · intro heven
    change (2 * o.stores.length + 1) % 2 = 0 at heven
    omega
  · intro seq' value' hloaded
    cases hloaded
  · intro seq' value' written hcopying
    cases hcopying
    exact ⟨hseq, fun i hi => absurd hi Bool.false_ne_true⟩
  · rw [hcounter]
    exact Nat.le_succ _

/-- `Store` copies a word. -/
lemma consistent_writeWord [DecidableEq ι] (h : Consistent init s o) {seq : ℕ} {value : ι → W}
    {written : ι → Bool} (hwriter : s.writer = .copying seq value written) (i : ι) :
    Consistent init
      { s with
        lock := { s.lock with value := Function.update s.lock.value i (value i) }
        writer := .copying seq value (Function.update written i true) } o := by
  have hcounter : s.counter o = 2 * o.stores.length + 1 := by
    unfold System.counter
    rw [hwriter]
  obtain ⟨hseq, hcopied⟩ := h.writer.copied seq value written hwriter
  refine h.of_writer ⟨?_, ?_, ?_, ?_⟩ h.loads rfl rfl rfl le_rfl hcounter.le fun _ => rfl
  · exact h.writer.sequence.trans (by rw [hcounter]; rfl)
  · intro heven
    change (2 * o.stores.length + 1) % 2 = 0 at heven
    omega
  · intro seq' value' hloaded
    cases hloaded
  · intro seq' value' written' hcopying
    cases hcopying
    refine ⟨hseq, fun j hj => ?_⟩
    change Function.update s.lock.value i (value i) j = value j
    by_cases hij : j = i
    · rw [hij, Function.update_self]
    · rw [Function.update_of_ne hij] at hj ⊢
      exact hcopied j hj

/-- `Store` makes the counter even and returns: its value is the one of the last store. -/
lemma consistent_storeEven [DecidableEq R] (h : Consistent init s o) {seq : ℕ} {value : ι → W}
    {written : ι → Bool} (hwriter : s.writer = .copying seq value written)
    (hall : ∀ i, written i) :
    Consistent init
      { s with
        lock := { s.lock with sequence := (seq + 2) % 2 ^ 64 }
        writer := .idle } (o.observe (.stored value)) := by
  have hcounter : s.counter o = 2 * o.stores.length + 1 := by
    unfold System.counter
    rw [hwriter]
  have hlength : (o.observe (.stored value)).stores.length = o.stores.length + 1 :=
    List.length_append
  obtain ⟨hseq, hcopied⟩ := h.writer.copied seq value written hwriter
  refine h.of_writer ⟨?_, ?_, ?_, ?_⟩ ⟨?_, h.loads.in_order⟩ rfl rfl rfl ?_ ?_ ?_
  · change (seq + 2) % 2 ^ 64 = 2 * (o.observe (.stored value)).stores.length % 2 ^ 64
    rw [hlength]
    omega
  · intro _
    change s.lock.value = _
    unfold Observed.current valueAfter
    rw [List.take_length]
    change s.lock.value = ((o.stores ++ [value]).getLast?).getD init
    rw [List.getLast?_concat, Option.getD_some]
    funext i
    exact hcopied i (hall i)
  · intro seq' value' hloaded
    cases hloaded
  · intro seq' value' written' hcopying
    cases hcopying
  · intro load hload
    obtain ⟨hle, hended, hresult⟩ := h.loads.returned load hload
    refine ⟨hle, hended.trans (by omega), fun hshort => ?_⟩
    exact (hresult hshort).trans (valueAfter_append init hended value).symm
  · omega
  · change s.counter o ≤ 2 * (o.observe (.stored value)).stores.length
    omega
  · intro hsame
    change s.counter o = 2 * (o.observe (.stored value)).stores.length at hsame
    omega

/-- What is known of a thread that has moved, by where it stands now. -/
lemma readerOk_setReader [DecidableEq R] {r : R} {reader : Reader ι W} {o' : Observed ι W R}
    (hstores : o'.stores = o.stores)
    (hsince : reader ≠ .idle → o'.started r ≤ o'.stores.length ∧
      ∀ load ∈ o'.loads, load.reader = r → load.endedAt ≤ o'.started r)
    (hcopied : ∀ before words, reader = .copying before words →
      ∃ c, before = c % 2 ^ 64 ∧ 2 * o'.started r ≤ c ∧ c ≤ s.counter o ∧
        (c = s.counter o → c % 2 = 0 → ∀ i w, words i = some w → w = o'.current init i)) :
    ReaderOk init (s.setReader r reader) o' r where
  since := by
    rw [System.readers_setReader_self]
    exact hsince
  copied := by
    rw [System.readers_setReader_self, s.counter_setReader r reader hstores]
    exact hcopied

/-- What a load knows that has just loaded the counter. -/
lemma readerOk_loadBefore [DecidableEq R] (h : WriterOk init s o) {r : R} {o' : Observed ι W R}
    (hstores : o'.stores = o.stores)
    (hsince : o'.started r ≤ o'.stores.length ∧
      ∀ load ∈ o'.loads, load.reader = r → load.endedAt ≤ o'.started r) :
    ReaderOk init (s.setReader r (.copying s.lock.sequence fun _ => none)) o' r := by
  refine readerOk_setReader hstores (fun _ => hsince) ?_
  rintro before words ⟨⟩
  have hle : 2 * o'.stores.length ≤ s.counter o := by
    unfold System.counter
    rw [hstores]
    split <;> omega
  refine ⟨s.counter o, h.sequence, by omega, le_rfl, ?_⟩
  intro _ _ i w hw
  cases hw

/-- `Load` is called and loads the counter. -/
lemma consistent_began [DecidableEq R] (h : Consistent init s o) (r : R) :
    Consistent init (s.setReader r (.copying s.lock.sequence fun _ => none))
      (o.observe (.began r)) := by
  have hstarted : (o.observe (.began r)).started r = o.stores.length := Function.update_self ..
  refine h.of_reader (readerOk_loadBefore h.writer rfl ⟨hstarted.le, ?_⟩)
    ⟨h.loads.returned, h.loads.in_order⟩ rfl ?_
  · intro load hload _
    rw [hstarted]
    exact (h.loads.returned load hload).2.1
  · intro r' hr
    exact ⟨Function.update_of_ne hr .., fun load hload _ => hload⟩

/-- `Load` loads the counter in a further iteration of its loop. -/
lemma consistent_retry [DecidableEq R] (h : Consistent init s o) {r : R}
    (hreader : s.readers r = .retrying) :
    Consistent init (s.setReader r (.copying s.lock.sequence fun _ => none)) o := by
  have hsince := (h.readers r).since (by simp [hreader])
  exact h.of_reader (readerOk_loadBefore h.writer rfl hsince) h.loads rfl fun r' _ =>
    ⟨rfl, fun load hload _ => hload⟩

/-- `Load` copies a word. -/
lemma consistent_readWord [DecidableEq ι] [DecidableEq R] (h : Consistent init s o) {r : R}
    {before : ℕ} {words : ι → Option W} (hreader : s.readers r = .copying before words) (i : ι) :
    Consistent init (s.setReader r
      (.copying before (Function.update words i (some (s.lock.value i))))) o := by
  obtain ⟨c, hbefore, hstart, hle, hwords⟩ := (h.readers r).copied before words hreader
  have hsince := (h.readers r).since (by simp [hreader])
  refine h.of_reader (readerOk_setReader rfl (fun _ => hsince) ?_) h.loads rfl fun r' _ =>
    ⟨rfl, fun load hload _ => hload⟩
  rintro before' words' ⟨⟩
  refine ⟨c, hbefore, hstart, hle, fun hc heven j w hw => ?_⟩
  by_cases hij : j = i
  · -- no store copies, so the word is the one of the last completed store
    rw [hij, Function.update_self] at hw
    rw [← Option.some.inj hw, hij, h.writer.stable (hc ▸ heven)]
  · rw [Function.update_of_ne hij] at hw
    exact hwords hc heven j w hw

/-- `Load` has seen that it may have a torn value and goes on. -/
lemma consistent_goesOn [DecidableEq R] (h : Consistent init s o) {r : R} {before : ℕ}
    {words : ι → Option W} (hreader : s.readers r = .copying before words) :
    Consistent init (s.setReader r .retrying) o := by
  have hsince := (h.readers r).since (by simp [hreader])
  refine h.of_reader (readerOk_setReader rfl (fun _ => hsince) ?_) h.loads rfl fun r' _ =>
    ⟨rfl, fun load hload _ => hload⟩
  rintro before' words' ⟨⟩

/-- `Load` has found the same even counter twice and returns. -/
lemma consistent_returned [DecidableEq R] (h : Consistent init s o) {r : R} {before : ℕ}
    {words : ι → Option W} (hreader : s.readers r = .copying before words)
    (hsame : before = s.lock.sequence) (heven : before % 2 = 0) {value : ι → W}
    (hvalue : ∀ i, words i = some (value i)) :
    Consistent init (s.setReader r .idle) (o.observe (.returned r value)) := by
  obtain ⟨c, hbefore, hstart, hle, hwords⟩ := (h.readers r).copied before words hreader
  obtain ⟨hstarted, hearlier⟩ := (h.readers r).since (by simp [hreader])
  refine h.of_reader (readerOk_setReader rfl (fun hbusy => absurd rfl hbusy) ?_) ⟨?_, ?_⟩ rfl ?_
  · rintro before' words' ⟨⟩
  · intro load hload
    rcases List.mem_append.mp hload with hload | hload
    · exact h.loads.returned load hload
    · rw [List.mem_singleton.mp hload]
      refine ⟨hstarted, le_rfl, fun hshort => ?_⟩
      -- the counter has not moved since it was loaded
      have hhigh : s.counter o ≤ 2 * o.stores.length + 1 := by
        unfold System.counter
        split <;> omega
      have hmod : c % 2 ^ 64 = s.counter o % 2 ^ 64 := by
        rw [← hbefore, hsame, h.writer.sequence]
      have hc := eq_of_mod_eq hle hstart hhigh hshort hmod
      have hceven : c % 2 = 0 := by omega
      funext i
      exact hwords hc hceven i (value i) (hvalue i)
  · refine List.pairwise_append.mpr ⟨h.loads.in_order, List.pairwise_singleton _ _, ?_⟩
    intro load hload later hlater hr
    rw [List.mem_singleton.mp hlater] at hr ⊢
    exact hearlier load hload hr
  · intro r' hr
    refine ⟨rfl, fun load hload hreader' => ?_⟩
    rcases List.mem_append.mp hload with hload | hload
    · exact hload
    · rw [List.mem_singleton.mp hload] at hreader'
      exact absurd hreader'.symm hr

/-! ## Runs -/

variable [Fintype ι] [DecidableEq ι] [DecidableEq R]

/-- Every access keeps the invariant. -/
lemma consistent_step (h : Consistent init s o) (access : Access ι W R) :
    Consistent init (s.step access).1 ((s.step access).2.foldl Observed.observe o) := by
  cases access with
  | loadSequence value =>
    simp only [System.step]
    split
    · case _ hwriter => exact consistent_loadSequence h hwriter value
    · exact h
  | storeOdd =>
    simp only [System.step]
    split
    · case _ hwriter => exact consistent_storeOdd h hwriter
    · exact h
  | writeWord i =>
    simp only [System.step]
    split
    · case _ hwriter =>
      split_ifs
      · exact h
      · exact consistent_writeWord h hwriter i
    · exact h
  | storeEven =>
    simp only [System.step]
    split
    · case _ hwriter =>
      split_ifs with hall
      · exact consistent_storeEven h hwriter hall
      · exact h
    · exact h
  | loadBefore r =>
    simp only [System.step]
    split
    · exact consistent_began h r
    · case _ hreader => exact consistent_retry h hreader
    · exact h
  | readWord r i =>
    simp only [System.step]
    split
    · case _ hreader =>
      split_ifs
      · exact h
      · exact consistent_readWord h hreader i
    · exact h
  | loadAfter r =>
    simp only [System.step]
    split
    · case _ before words hreader =>
      split_ifs with hall htorn
      · exact consistent_goesOn h hreader
      · rw [not_or, not_not, not_not] at htorn
        exact consistent_returned h hreader htorn.1 htorn.2 fun i => (Option.some_get (hall i)).symm
      · exact h
    · exact h

/-- What an observer of a run knows. -/
def observed (init : ι → W) (accesses : List (Access ι W R)) : Observed ι W R :=
  .ofEvents (Mealy.run System.step (System.initial init) accesses).2

/-- The invariant holds throughout every run. -/
lemma consistent_run (init : ι → W) (accesses : List (Access ι W R)) :
    Consistent init (Mealy.run System.step (System.initial init) accesses).1
      (observed init accesses) := by
  induction accesses using List.reverseRecOn with
  | nil => exact consistent_initial
  | append_singleton accesses access ih =>
    unfold observed Observed.ofEvents at ih ⊢
    rw [Mealy.run_concat_fst, Mealy.run_concat_snd, List.foldl_append]
    exact consistent_step ih access

end Steps

/-- **A load is never torn and never out of date.**  For every interleaving of the accesses of a
thread that stores and of any threads that load: every completed load during which fewer than
`2 ^ 63` stores were completed has returned the value of the last store that was complete when the
load ended, or the initial value if there was none; and each load of a thread has started after the
earlier loads of the thread have ended, so that it does not go back to an older store. -/
theorem load_returns_last_store [Fintype ι] [DecidableEq ι] [DecidableEq R] (init : ι → W)
    (accesses : List (Access ι W R)) :
    let o := observed init accesses
    (∀ load ∈ o.loads, load.startedAt ≤ load.endedAt ∧ load.endedAt ≤ o.stores.length ∧
      (load.endedAt - load.startedAt < 2 ^ 63 →
        load.result = valueAfter init o.stores load.endedAt)) ∧
    o.loads.Pairwise fun load later =>
      load.reader = later.reader → load.endedAt ≤ later.startedAt := by
  intro o
  have h := (consistent_run init accesses).loads
  exact ⟨h.returned, h.in_order⟩

/-- A load that has copied one word before a store and the other one during it tries again. -/
example : ((observed (fun _ => 1) [.loadBefore (), .readWord () false, .loadSequence fun _ => 2,
      .storeOdd, .writeWord true, .readWord () true, .loadAfter (), .writeWord false, .storeEven,
      .loadBefore (), .readWord () true, .readWord () false, .loadAfter ()]).loads.map
      fun load => (load.startedAt, load.endedAt, load.result false, load.result true)) =
    [(0, 1, 2, 2)] := by
  decide

end Seqlock

end ToyExchange
