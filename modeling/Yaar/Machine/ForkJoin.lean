import Mathlib.Data.Set.Basic
import Yaar.Machine.Execution

/-! Tasks over a shared memory that split their work in two, spawn a task for each
part and await both. -/
namespace ForkJoin

/-- What a running task does next. -/
inductive Next (M L P : Type*) where
  | goes (mem : M) (line : L)
  | splits (part : P)
  | ends

/-- The body of a task, without a next step where it panics, and the lines at which the
tasks for the two parts of a split begin. -/
structure Program (M L P : Type*) where
  next : M → L → Option (Next M L P)
  left : P → L
  right : P → L

/-- A task, with the tasks it has spawned and not yet joined. -/
inductive Tasks (L P : Type*) where
  | runs (line : L)
  | spawned (part : P) (left : Tasks L P)
  | awaitsLeft (part : P) (left right : Tasks L P)
  | awaitsRight (part : P) (right : Tasks L P)
  | done
  | panicked
  deriving DecidableEq

section Step

variable {M L P : Type*}

/-- Some task has panicked. -/
def Tasks.Panics : Tasks L P → Prop
  | .spawned _ left => left.Panics
  | .awaitsLeft _ left right => left.Panics ∨ right.Panics
  | .awaitsRight _ right => right.Panics
  | .panicked => True
  | .runs _ | .done => False

/-- What a task makes of the end of one it awaits. A panic is passed on. -/
def Tasks.join (joined : Tasks L P) : Tasks L P → Option (Tasks L P)
  | .done => some joined
  | .panicked => some .panicked
  | _ => none

/-- One step of one task, which a path of spawns leads to: `false` to the left. -/
def step (prog : Program M L P) (mem : M) : Tasks L P → List Bool → Option (M × Tasks L P)
  | .runs line, [] =>
      match prog.next mem line with
      | none => some (mem, .panicked)
      | some (.goes mem' line') => some (mem', .runs line')
      | some (.splits part) => some (mem, .spawned part (.runs (prog.left part)))
      | some .ends => some (mem, .done)
  | .spawned part left, [] => some (mem, .awaitsLeft part left (.runs (prog.right part)))
  | .spawned part left, false :: path =>
      (step prog mem left path).map fun r => (r.1, .spawned part r.2)
  | .awaitsLeft part left right, [] => (Tasks.join (.awaitsRight part right) left).map (mem, ·)
  | .awaitsLeft part left right, false :: path =>
      (step prog mem left path).map fun r => (r.1, .awaitsLeft part r.2 right)
  | .awaitsLeft part left right, true :: path =>
      (step prog mem right path).map fun r => (r.1, .awaitsLeft part left r.2)
  | .awaitsRight _ right, [] => (Tasks.join .done right).map (mem, ·)
  | .awaitsRight part right, true :: path =>
      (step prog mem right path).map fun r => (r.1, .awaitsRight part r.2)
  | _, _ => none

/-- One task, with every order of the steps of those that it brings about. -/
def system (prog : Program M L P) (mem : M) (line : L) :
    Machine.System (M × Tasks L P) (List Bool) where
  initial := (mem, .runs line)
  next := fun s path => step prog s.1 s.2 path

end Step

/-! ## Rules for programs whose tasks own their cells -/

variable {ι α L P : Type*}

/-- An outline of a program: what holds at each line of a task that owns some cells, how a
split hands them on, and what the end of a task has established. Each assertion is about
the owned cells only. -/
structure Outline (prog : Program (ι → α) L P) where
  Changes : Set ι → (ι → α) → (ι → α) → Prop
  At : Set ι → L → (ι → α) → Prop
  Split : Set ι → P → Set ι → Set ι → (ι → α) → Prop
  Post : Set ι → (ι → α) → Prop
  cost : L → (ι → α) → Nat
  changes_refl : ∀ cells mem, Changes cells mem mem
  changes_trans : ∀ cells mem mem' mem'', Changes cells mem mem' → Changes cells mem' mem'' →
    Changes cells mem mem''
  changes_mono : ∀ cells cells' mem mem', cells ⊆ cells' → Changes cells mem mem' →
    Changes cells' mem mem'
  changes_outside : ∀ cells mem mem', Changes cells mem mem' → ∀ i, i ∉ cells → mem' i = mem i
  at_congr : ∀ cells line mem mem', (∀ i ∈ cells, mem' i = mem i) → At cells line mem →
    At cells line mem' ∧ cost line mem' = cost line mem
  split_congr : ∀ cells part left right mem mem', (∀ i ∈ cells, mem' i = mem i) →
    Split cells part left right mem → Split cells part left right mem'
  post_congr : ∀ cells mem mem', (∀ i ∈ cells, mem' i = mem i) → Post cells mem → Post cells mem'
  split_cells : ∀ cells part left right mem, Split cells part left right mem →
    left ⊆ cells ∧ right ⊆ cells ∧ ∀ i ∈ left, i ∉ right
  split_changes : ∀ cells part left right mem mem', Split cells part left right mem →
    Changes left mem mem' ∨ Changes right mem mem' → Split cells part left right mem'
  goes : ∀ cells line mem mem' line', At cells line mem → prog.next mem line = some (.goes mem' line') →
    Changes cells mem mem' ∧ At cells line' mem' ∧ cost line' mem' < cost line mem
  splits : ∀ cells line mem part, At cells line mem → prog.next mem line = some (.splits part) →
    ∃ left right, Split cells part left right mem ∧ At left (prog.left part) mem ∧
      At right (prog.right part) mem ∧
      cost (prog.left part) mem + cost (prog.right part) mem + 3 < cost line mem
  ends : ∀ cells line mem, At cells line mem → prog.next mem line = some .ends →
    Post cells mem ∧ 0 < cost line mem
  runs : ∀ cells line mem, At cells line mem → prog.next mem line ≠ none
  joins : ∀ cells part left right mem, Split cells part left right mem → Post left mem →
    Post right mem → Post cells mem

namespace Outline

variable {prog : Program (ι → α) L P} (o : Outline prog)

/-- The outline holds of every task, each with the cells that it owns. -/
def Holds : Set ι → (ι → α) → Tasks L P → Prop
  | cells, mem, .runs line => o.At cells line mem
  | cells, mem, .spawned part left => ∃ a b, o.Split cells part a b mem ∧ Holds a mem left ∧
      o.At b (prog.right part) mem
  | cells, mem, .awaitsLeft part left right => ∃ a b, o.Split cells part a b mem ∧
      Holds a mem left ∧ Holds b mem right
  | cells, mem, .awaitsRight part right => ∃ a b, o.Split cells part a b mem ∧ o.Post a mem ∧
      Holds b mem right
  | cells, mem, .done => o.Post cells mem
  | _, _, .panicked => False

/-- A bound on the steps that are still to be taken. -/
def rank (mem : ι → α) : Tasks L P → Nat
  | .runs line => o.cost line mem
  | .spawned part left => rank mem left + o.cost (prog.right part) mem + 3
  | .awaitsLeft _ left right => rank mem left + rank mem right + 2
  | .awaitsRight _ right => rank mem right + 1
  | .done | .panicked => 0

variable {o} {cells : Set ι} {mem mem' : ι → α} {tasks tasks' : Tasks L P}

/-- Tasks do not notice what happens outside of their cells. -/
theorem Holds.congr (holds : o.Holds cells mem tasks) (hSame : ∀ i ∈ cells, mem' i = mem i) :
    o.Holds cells mem' tasks ∧ o.rank mem' tasks = o.rank mem tasks := by
  induction tasks generalizing cells with
  | runs line => exact o.at_congr cells line mem mem' hSame holds
  | spawned part left ih =>
      obtain ⟨a, b, hSplit, hLeft, hAt⟩ := holds
      obtain ⟨ha, hb, -⟩ := o.split_cells cells part a b mem hSplit
      obtain ⟨hLeft, hRank⟩ := ih hLeft fun i hi => hSame i (ha hi)
      obtain ⟨hAt, hCost⟩ := o.at_congr b _ mem mem' (fun i hi => hSame i (hb hi)) hAt
      exact ⟨⟨a, b, o.split_congr cells part a b mem mem' hSame hSplit, hLeft, hAt⟩,
        by rw [rank, rank, hRank, hCost]⟩
  | awaitsLeft part left right ihLeft ihRight =>
      obtain ⟨a, b, hSplit, hLeft, hRight⟩ := holds
      obtain ⟨ha, hb, -⟩ := o.split_cells cells part a b mem hSplit
      obtain ⟨hLeft, hRankLeft⟩ := ihLeft hLeft fun i hi => hSame i (ha hi)
      obtain ⟨hRight, hRankRight⟩ := ihRight hRight fun i hi => hSame i (hb hi)
      exact ⟨⟨a, b, o.split_congr cells part a b mem mem' hSame hSplit, hLeft, hRight⟩,
        by rw [rank, rank, hRankLeft, hRankRight]⟩
  | awaitsRight part right ih =>
      obtain ⟨a, b, hSplit, hPost, hRight⟩ := holds
      obtain ⟨ha, hb, -⟩ := o.split_cells cells part a b mem hSplit
      obtain ⟨hRight, hRank⟩ := ih hRight fun i hi => hSame i (hb hi)
      exact ⟨⟨a, b, o.split_congr cells part a b mem mem' hSame hSplit,
        o.post_congr a mem mem' (fun i hi => hSame i (ha hi)) hPost, hRight⟩, by rw [rank, rank, hRank]⟩
  | done => exact ⟨o.post_congr cells mem mem' hSame holds, rfl⟩
  | panicked => exact holds.elim

/-- The cells of the other part of a split stay. -/
theorem same_of_changes {part : P} {a b : Set ι} (hSplit : o.Split cells part a b mem) :
    (o.Changes a mem mem' → ∀ i ∈ b, mem' i = mem i) ∧
      (o.Changes b mem mem' → ∀ i ∈ a, mem' i = mem i) := by
  obtain ⟨-, -, hDisjoint⟩ := o.split_cells cells part a b mem hSplit
  constructor
  · intro hChanges i hi
    exact o.changes_outside a mem mem' hChanges i fun hIn => hDisjoint i hIn hi
  · intro hChanges i hi
    exact o.changes_outside b mem mem' hChanges i fun hIn => hDisjoint i hi hIn

/-- A step of any task keeps the outline, changes only owned cells and makes the rank fall. -/
theorem Holds.step {path : List Bool} (holds : o.Holds cells mem tasks)
    (h : step prog mem tasks path = some (mem', tasks')) :
    o.Changes cells mem mem' ∧ o.Holds cells mem' tasks' ∧
      o.rank mem' tasks' < o.rank mem tasks := by
  induction tasks generalizing cells path tasks' with
  | runs line =>
      cases path with
      | cons side path => simp [ForkJoin.step] at h
      | nil =>
          have hRuns := o.runs cells line mem holds
          rw [ForkJoin.step] at h
          split at h
          · next hNext => exact absurd hNext hRuns
          · next mem₁ line₁ hNext =>
              obtain ⟨rfl, rfl⟩ : mem₁ = mem' ∧ .runs line₁ = tasks' := by simpa using h
              exact o.goes cells line mem _ _ holds hNext
          · next part hNext =>
              obtain ⟨rfl, rfl⟩ : mem = mem' ∧ .spawned part (.runs (prog.left part)) = tasks' := by
                simpa using h
              obtain ⟨a, b, hSplit, hLeft, hRight, hCost⟩ := o.splits cells line mem part holds hNext
              exact ⟨o.changes_refl cells mem, ⟨a, b, hSplit, hLeft, hRight⟩, hCost⟩
          · next hNext =>
              obtain ⟨rfl, rfl⟩ : mem = mem' ∧ .done = tasks' := by simpa using h
              obtain ⟨hPost, hCost⟩ := o.ends cells line mem holds hNext
              exact ⟨o.changes_refl cells mem, hPost, hCost⟩
  | spawned part left ih =>
      obtain ⟨a, b, hSplit, hLeft, hAt⟩ := holds
      match path with
      | [] =>
          obtain ⟨rfl, rfl⟩ :
              mem = mem' ∧ .awaitsLeft part left (.runs (prog.right part)) = tasks' := by
            simpa [ForkJoin.step] using h
          refine ⟨o.changes_refl cells mem, ⟨a, b, hSplit, hLeft, hAt⟩, ?_⟩
          simp [rank]
      | false :: path =>
          obtain ⟨⟨mem₁, left'⟩, hStep, hEq⟩ := Option.map_eq_some_iff.mp h
          obtain ⟨rfl, rfl⟩ : mem₁ = mem' ∧ .spawned part left' = tasks' := by simpa using hEq
          obtain ⟨hChanges, hLeft', hRank⟩ := ih hLeft hStep
          obtain ⟨hAt', hCost⟩ := o.at_congr b _ mem _ ((same_of_changes hSplit).1 hChanges) hAt
          obtain ⟨ha, -, -⟩ := o.split_cells cells part a b mem hSplit
          refine ⟨o.changes_mono a cells mem _ ha hChanges,
            ⟨a, b, o.split_changes cells part a b mem _ hSplit (.inl hChanges), hLeft', hAt'⟩, ?_⟩
          rw [rank, rank, hCost]
          omega
      | true :: path => simp [ForkJoin.step] at h
  | awaitsLeft part left right ihLeft ihRight =>
      obtain ⟨a, b, hSplit, hLeft, hRight⟩ := holds
      obtain ⟨ha, hb, -⟩ := o.split_cells cells part a b mem hSplit
      match path with
      | [] =>
          obtain ⟨joined, hJoin, hEq⟩ := Option.map_eq_some_iff.mp h
          obtain ⟨rfl, rfl⟩ : mem = mem' ∧ joined = tasks' := by simpa using hEq
          cases left with
          | done =>
              obtain rfl := Option.some.inj hJoin
              refine ⟨o.changes_refl cells mem, ⟨a, b, hSplit, hLeft, hRight⟩, ?_⟩
              simp only [rank]
              omega
          | panicked => exact hLeft.elim
          | _ => simp [Tasks.join] at hJoin
      | false :: path =>
          obtain ⟨⟨mem₁, left'⟩, hStep, hEq⟩ := Option.map_eq_some_iff.mp h
          obtain ⟨rfl, rfl⟩ : mem₁ = mem' ∧ .awaitsLeft part left' right = tasks' := by simpa using hEq
          obtain ⟨hChanges, hLeft', hRank⟩ := ihLeft hLeft hStep
          obtain ⟨hRight', hSame⟩ := hRight.congr ((same_of_changes hSplit).1 hChanges)
          refine ⟨o.changes_mono a cells mem _ ha hChanges,
            ⟨a, b, o.split_changes cells part a b mem _ hSplit (.inl hChanges), hLeft', hRight'⟩, ?_⟩
          rw [rank, rank, hSame]
          omega
      | true :: path =>
          obtain ⟨⟨mem₁, right'⟩, hStep, hEq⟩ := Option.map_eq_some_iff.mp h
          obtain ⟨rfl, rfl⟩ : mem₁ = mem' ∧ .awaitsLeft part left right' = tasks' := by simpa using hEq
          obtain ⟨hChanges, hRight', hRank⟩ := ihRight hRight hStep
          obtain ⟨hLeft', hSame⟩ := hLeft.congr ((same_of_changes hSplit).2 hChanges)
          refine ⟨o.changes_mono b cells mem _ hb hChanges,
            ⟨a, b, o.split_changes cells part a b mem _ hSplit (.inr hChanges), hLeft', hRight'⟩, ?_⟩
          rw [rank, rank, hSame]
          omega
  | awaitsRight part right ih =>
      obtain ⟨a, b, hSplit, hPost, hRight⟩ := holds
      obtain ⟨-, hb, -⟩ := o.split_cells cells part a b mem hSplit
      match path with
      | [] =>
          obtain ⟨joined, hJoin, hEq⟩ := Option.map_eq_some_iff.mp h
          obtain ⟨rfl, rfl⟩ : mem = mem' ∧ joined = tasks' := by simpa using hEq
          cases right with
          | done =>
              obtain rfl := Option.some.inj hJoin
              exact ⟨o.changes_refl cells mem, o.joins cells part a b mem hSplit hPost hRight,
                Nat.succ_pos _⟩
          | panicked => exact hRight.elim
          | _ => simp [Tasks.join] at hJoin
      | true :: path =>
          obtain ⟨⟨mem₁, right'⟩, hStep, hEq⟩ := Option.map_eq_some_iff.mp h
          obtain ⟨rfl, rfl⟩ : mem₁ = mem' ∧ .awaitsRight part right' = tasks' := by simpa using hEq
          obtain ⟨hChanges, hRight', hRank⟩ := ih hRight hStep
          refine ⟨o.changes_mono b cells mem _ hb hChanges,
            ⟨a, b, o.split_changes cells part a b mem _ hSplit (.inr hChanges),
              o.post_congr a mem _ ((same_of_changes hSplit).2 hChanges) hPost, hRight'⟩, ?_⟩
          rw [rank, rank]
          omega
      | false :: path => simp [ForkJoin.step] at h
  | done => simp [ForkJoin.step] at h
  | panicked => exact holds.elim

theorem Holds.not_panics (holds : o.Holds cells mem tasks) : ¬tasks.Panics := by
  induction tasks generalizing cells with
  | runs line => exact id
  | spawned part left ih =>
      obtain ⟨a, b, -, hLeft, -⟩ := holds
      exact ih hLeft
  | awaitsLeft part left right ihLeft ihRight =>
      obtain ⟨a, b, -, hLeft, hRight⟩ := holds
      exact not_or.mpr ⟨ihLeft hLeft, ihRight hRight⟩
  | awaitsRight part right ih =>
      obtain ⟨a, b, -, -, hRight⟩ := holds
      exact ih hRight
  | done => exact id
  | panicked => exact holds.elim

/-- As long as the first task is not at its end, some task can take a step. -/
theorem Holds.enabled (holds : o.Holds cells mem tasks) (hDone : tasks ≠ .done) :
    ∃ path r, ForkJoin.step prog mem tasks path = some r := by
  induction tasks generalizing cells with
  | runs line =>
      refine ⟨[], ?_⟩
      rw [ForkJoin.step]
      split
      · next hNext => exact absurd hNext (o.runs cells line mem holds)
      · exact ⟨_, rfl⟩
      · exact ⟨_, rfl⟩
      · exact ⟨_, rfl⟩
  | spawned part left => exact ⟨[], _, rfl⟩
  | awaitsLeft part left right ihLeft =>
      obtain ⟨a, b, -, hLeft, -⟩ := holds
      by_cases hEnd : left = .done
      · subst hEnd
        exact ⟨[], _, rfl⟩
      · obtain ⟨path, r, hStep⟩ := ihLeft hLeft hEnd
        exact ⟨false :: path, _, by rw [ForkJoin.step, hStep, Option.map_some]⟩
  | awaitsRight part right ih =>
      obtain ⟨a, b, -, -, hRight⟩ := holds
      by_cases hEnd : right = .done
      · subst hEnd
        exact ⟨[], _, rfl⟩
      · obtain ⟨path, r, hStep⟩ := ih hRight hEnd
        exact ⟨true :: path, _, by rw [ForkJoin.step, hStep, Option.map_some]⟩
  | done => exact absurd rfl hDone
  | panicked => exact holds.elim

/-- Whatever the order of the steps, the outline holds all along, and the cost of the
first line bounds their number. -/
theorem holds_of_run {line : L} {steps : List (((ι → α) × Tasks L P) × List Bool)}
    {s : (ι → α) × Tasks L P} (start : o.At cells line mem)
    (run : (system prog mem line).Run steps s) :
    o.Changes cells mem s.1 ∧ o.Holds cells s.1 s.2 ∧
      steps.length + o.rank s.1 s.2 ≤ o.cost line mem := by
  induction run with
  | refl => exact ⟨o.changes_refl cells mem, start, by simp [system, rank]⟩
  | @step steps u v path prior last ih =>
      obtain ⟨hChanges, holds, hRank⟩ := ih
      obtain ⟨hStep, holds', hFalls⟩ := holds.step last
      refine ⟨o.changes_trans cells mem u.1 v.1 hChanges hStep, holds', ?_⟩
      rw [List.length_append, List.length_singleton]
      omega

end Outline
end ForkJoin
