import Yaar.Data.Stride
import Yaar.Data.XorShift

/-! `runtime/internal/random.rs`: a generator of words, and an order in which to
visit a range of indices. -/
namespace Yaar.Runtime

/-- What unwinds a thread. -/
inductive Panic where
  | overflow
  | unwrap
  | assertion
  deriving DecidableEq

/-- `Option::unwrap` -/
def unwrap {α : Type*} : Option α → Except Panic α
  | some a => .ok a
  | none => .error .unwrap

/-- The targets that `gen` has shifts for. -/
inductive Target where
  | bits32
  | bits64
  deriving DecidableEq

namespace Target

/-- Of a `usize`. -/
def width : Target → Nat
  | bits32 => 32
  | bits64 => 64

/-- `usize::MAX` -/
def max (target : Target) : Nat := 2 ^ target.width - 1

def shifts : Target → Nat × Nat × Nat
  | bits32 => (13, 17, 5)
  | bits64 => (13, 7, 17)

/-- `HASH` -/
def hash : (target : Target) → BitVec target.width
  | bits32 => 0x9E3779B9#32
  | bits64 => 0x9E3779B97F4A7C15#64

/-- `+` of two words. -/
def add (target : Target) (a b : Nat) : Except Panic Nat :=
  if a + b ≤ target.max then .ok (a + b) else .error .overflow

/-- `-` of two words. -/
def sub (_target : Target) (a b : Nat) : Except Panic Nat :=
  if b ≤ a then .ok (a - b) else .error .overflow

end Target

/-- `NonZeroUsize`, of a natural number or of the bits of a word. -/
@[ext] structure NonZero (α : Type*) [Zero α] where
  get : α
  ne_zero : get ≠ 0

namespace NonZero

variable {α : Type*} [Zero α] [DecidableEq α]

/-- `NonZeroUsize::new` -/
def new (a : α) : Option (NonZero α) := if h : a ≠ 0 then some ⟨a, h⟩ else none

@[simp] theorem new_zero : new (0 : α) = none := by simp [new]

theorem new_of_ne_zero {a : α} (h : a ≠ 0) : new a = some ⟨a, h⟩ := by simp [new, h]

end NonZero

structure RandomIterSource where
  range : NonZero Nat
  prime : NonZero Nat

/-- `From<NonZeroUsize>` -/
def RandomIterSource.from (range : NonZero Nat) : Except Panic RandomIterSource := do
  let candidates := (List.range' (range.get / 2) (range.get - range.get / 2)).reverse
  let primes := (candidates.filter fun prime => prime.gcd range.get == 1).filterMap NonZero.new
  let prime ← unwrap primes.head?
  return { range, prime }

@[ext] structure RandomGenerator (target : Target) where
  xorshift : NonZero (BitVec target.width)

namespace RandomGenerator

variable {target : Target}

/-- `new`, where `seed` is what it takes from the counter. -/
def new (seed : BitVec target.width) : Except Panic (RandomGenerator target) := do
  let xorshift ← unwrap
    ((NonZero.new (seed * target.hash)).or (NonZero.new (BitVec.ofNat target.width 0xdeadbeef)))
  return { xorshift }

/-- The three steps of `gen`. -/
def shift (target : Target) (xs : BitVec target.width) : BitVec target.width :=
  let shifts := target.shifts
  let xs := xs ^^^ (xs <<< shifts.1)
  let xs := xs ^^^ (xs >>> shifts.2.1)
  let xs := xs ^^^ (xs <<< shifts.2.2)
  xs

def gen (rng : RandomGenerator target) :
    Except Panic (BitVec target.width × RandomGenerator target) := do
  let xs := shift target rng.xorshift.get
  let xorshift ← unwrap (NonZero.new xs)
  return (xs, { xorshift })

/-- The calls of the closure of `gen_iter`, with the indices they return. -/
def visit (target : Target) (range prime : Nat) : Nat → Nat → Except Panic (List Nat)
  | 0, _ => .ok []
  | count + 1, index => do
      let index ← target.add index prime
      let index := if index ≥ range then index - range else index
      if index < range then
        let indices ← visit target range prime count index
        return index :: indices
      else .error .assertion

/-- `gen_iter`, with the iterator run to its end. -/
def genIter (rng : RandomGenerator target) (iterSource : RandomIterSource) :
    Except Panic (List Nat × RandomGenerator target) := do
  let range := iterSource.range.get
  let prime := iterSource.prime.get
  let (xs, rng) ← rng.gen
  let indices ← visit target range prime range (xs.toNat % range)
  return (indices, rng)

end RandomGenerator

/-! ## The words of a generator -/

namespace Target

theorem shifts_pos (target : Target) :
    0 < target.shifts.1 ∧ 0 < target.shifts.2.1 ∧ 0 < target.shifts.2.2 := by
  cases target <;> decide

theorem add_of_le {target : Target} {a b : Nat} (h : a + b ≤ target.max) :
    target.add a b = .ok (a + b) := if_pos h

theorem sub_of_le {target : Target} {a b : Nat} (h : b ≤ a) : target.sub a b = .ok (a - b) := if_pos h

end Target

namespace RandomGenerator

variable {target : Target}

/-- The other word a generator may start with is not zero on either target. -/
theorem deadbeef_ne_zero (target : Target) : BitVec.ofNat target.width 0xdeadbeef ≠ 0 := by
  cases target <;> decide

/-- Every seed gives a generator, as the other value is used where its hash is zero. -/
theorem new_ok (seed : BitVec target.width) : ∃ rng : RandomGenerator target, new seed = .ok rng := by
  by_cases hSeed : seed * target.hash = 0
  · refine ⟨⟨⟨_, deadbeef_ne_zero target⟩⟩, ?_⟩
    simp only [new, hSeed, NonZero.new_zero, Option.none_or,
      NonZero.new_of_ne_zero (deadbeef_ne_zero target)]
    rfl
  · refine ⟨⟨⟨_, hSeed⟩⟩, ?_⟩
    simp only [new, NonZero.new_of_ne_zero hSeed, Option.some_or]
    rfl

theorem shift_eq (xs : BitVec target.width) : shift target xs =
    XorShift.left target.shifts.2.2
      (XorShift.right target.shifts.2.1 (XorShift.left target.shifts.1 xs)) := rfl

theorem shift_injective (target : Target) : Function.Injective (shift target) := by
  obtain ⟨hFirst, hSecond, hThird⟩ := target.shifts_pos
  intro x y hEq
  rw [shift_eq, shift_eq] at hEq
  apply XorShift.left_injective hFirst
  apply XorShift.right_injective hSecond
  apply XorShift.left_injective hThird
  exact hEq

theorem shift_zero (target : Target) : shift target 0 = 0 := by
  rw [shift_eq, XorShift.left_zero, XorShift.right_zero, XorShift.left_zero]

theorem shift_ne_zero {xs : BitVec target.width} (h : xs ≠ 0) : shift target xs ≠ 0 :=
  XorShift.ne_zero_of_injective (shift_injective target) (shift_zero target) h

/-- The generator after `gen`. -/
def next (rng : RandomGenerator target) : RandomGenerator target where
  xorshift := ⟨shift target rng.xorshift.get, shift_ne_zero rng.xorshift.ne_zero⟩

theorem gen_eq (rng : RandomGenerator target) :
    rng.gen = .ok (shift target rng.xorshift.get, rng.next) := by
  simp only [gen, NonZero.new_of_ne_zero (shift_ne_zero rng.xorshift.ne_zero)]
  rfl

theorem next_injective : Function.Injective (next : RandomGenerator target → _) := by
  intro rng other hEq
  apply RandomGenerator.ext
  apply NonZero.ext
  apply shift_injective target
  exact congrArg (fun rng => rng.xorshift.get) hEq

/-- The generator after so many calls of `gen`. -/
def genTimes : Nat → RandomGenerator target → Except Panic (RandomGenerator target)
  | 0, rng => .ok rng
  | count + 1, rng => do
      let (_, rng) ← rng.gen
      genTimes count rng

/-- No call of a series fails, and each goes on from the generator the last one has
left. -/
theorem genTimes_eq (count : Nat) (rng : RandomGenerator target) :
    genTimes count rng = .ok (next^[count] rng) := by
  induction count generalizing rng with
  | zero => rfl
  | succ count ih =>
      rw [genTimes, gen_eq, Function.iterate_succ_apply]
      exact ih rng.next

/-- The steps of `gen` make no word zero and no two words one, so that a generator
from any seed gives words without end and two that differ never become one. -/
theorem gen_runs (target : Target) :
    (∀ xs, xs ≠ 0 → shift target xs ≠ 0) ∧ Function.Injective (shift target) ∧
    (∀ seed, ∃ rng : RandomGenerator target, new seed = .ok rng ∧
      ∀ count, ∃ rng', genTimes count rng = .ok rng') ∧
    ∀ count, Function.Injective (genTimes count : RandomGenerator target → _) := by
  refine ⟨fun xs h => shift_ne_zero h, shift_injective target, fun seed => ?_, fun count => ?_⟩
  · obtain ⟨rng, hNew⟩ := new_ok seed
    exact ⟨rng, hNew, fun count => ⟨_, genTimes_eq count rng⟩⟩
  · intro rng other hEq
    rw [genTimes_eq, genTimes_eq] at hEq
    exact next_injective.iterate count (Except.ok.inj hEq)

end RandomGenerator

/-! ## The order of a visit -/

/-- A number and the one below it have no common divisor, so a step for the iterator is
found. -/
theorem coprime_pred {range : Nat} (h : 2 ≤ range) : Nat.Coprime (range - 1) range := by
  obtain ⟨count, rfl⟩ : ∃ count, range = count + 1 := ⟨range - 1, by omega⟩
  simp

namespace RandomIterSource

/-- The last candidate is taken, for it shares no factor with the range. -/
theorem from_eq {range : NonZero Nat} (h : 2 ≤ range.get) :
    RandomIterSource.from range =
      .ok { range, prime := ⟨range.get - 1, by omega⟩ } := by
  have hCandidates : (List.range' (range.get / 2) (range.get - range.get / 2)).reverse =
      (range.get - 1) ::
        (List.range' (range.get / 2) (range.get - range.get / 2 - 1)).reverse := by
    obtain ⟨count, hCount⟩ : ∃ count, range.get - range.get / 2 = count + 1 :=
      ⟨range.get - range.get / 2 - 1, by omega⟩
    rw [hCount, List.range'_concat, List.reverse_concat, Nat.add_sub_cancel]
    congr 1
    omega
  have hCoprime : ((range.get - 1).gcd range.get == 1) = true := by
    simpa using coprime_pred h
  have hPrime : range.get - 1 ≠ 0 := by omega
  rw [RandomIterSource.from, hCandidates, List.filter_cons, if_pos hCoprime,
    List.filterMap_cons_some (NonZero.new_of_ne_zero hPrime), List.head?_cons]
  rfl

/-- The one candidate for a range of one is zero. -/
theorem from_one {range : NonZero Nat} (h : range.get = 1) :
    RandomIterSource.from range = .error .unwrap := by
  simp only [RandomIterSource.from, h]
  rfl

/-- What a source holds, however the search for it went. -/
theorem from_ok {range : NonZero Nat} {source : RandomIterSource}
    (h : RandomIterSource.from range = .ok source) :
    2 ≤ range.get ∧ source.range = range ∧ source.prime.get = range.get - 1 := by
  have hPos : range.get ≠ 0 := range.ne_zero
  have hRange : 2 ≤ range.get := by
    by_contra hSmall
    rw [from_one (by omega)] at h
    cases h
  rw [from_eq hRange] at h
  cases h
  exact ⟨hRange, rfl, rfl⟩

end RandomIterSource

namespace RandomGenerator

variable {target : Target}

/-- The closure walks around the range. -/
theorem visit_eq {range prime : Nat} (hPrime : prime < range) (hMax : range ≤ target.max / 2)
    (count : Nat) {index : Nat} (hIndex : index < range) :
    visit target range prime count index = .ok (Stride.walk range prime count index) := by
  induction count generalizing index with
  | zero => rfl
  | succ count ih =>
      have hAdd : target.add index prime = .ok (index + prime) := Target.add_of_le (by omega)
      have hWrap : (if index + prime ≥ range then index + prime - range else index + prime) =
          (index + prime) % range := by
        split
        · rw [Nat.mod_eq_sub_mod (by omega), Nat.mod_eq_of_lt (by omega)]
        · rw [Nat.mod_eq_of_lt (by omega)]
      have hLt : (index + prime) % range < range := Nat.mod_lt _ (by omega)
      rw [visit, hAdd, Stride.walk]
      simp only [bind, Except.bind, pure, Except.pure, hWrap, hLt, if_true, ih hLt]

/-- The iterator visits each index once. The sum of an index and the step fits a word,
as the range is at most half of its largest value. -/
theorem genIter_perm {range : NonZero Nat} {source : RandomIterSource}
    (hSource : RandomIterSource.from range = .ok source) (hMax : range.get ≤ target.max / 2)
    (rng : RandomGenerator target) :
    ∃ indices, rng.genIter source = .ok (indices, rng.next) ∧
      indices.Perm (List.range range.get) := by
  obtain ⟨hTwo, hRange, hPrime⟩ := RandomIterSource.from_ok hSource
  have hStart : (shift target rng.xorshift.get).toNat % range.get < range.get :=
    Nat.mod_lt _ (by omega)
  have hLt : range.get - 1 < range.get := by omega
  have hVisit := visit_eq hLt hMax range.get hStart
  refine ⟨Stride.walk range.get (range.get - 1) range.get _, ?_,
    Stride.walk_perm (coprime_pred hTwo) (by omega) ((shift target rng.xorshift.get).toNat % range.get)⟩
  rw [genIter, gen_eq, hRange, hPrime]
  simp only [bind, Except.bind, pure, Except.pure, hVisit]

/-- A full visit comes to each index of the range exactly once, with no addition
over the end of a word and no failed assertion. -/
theorem genIter_visits {range : NonZero Nat} {source : RandomIterSource}
    (hSource : RandomIterSource.from range = .ok source) (hMax : range.get ≤ target.max / 2)
    (rng : RandomGenerator target) :
    ∃ indices rng', rng.genIter source = .ok (indices, rng') ∧ indices.length = range.get ∧
      ∀ i, indices.count i = if i < range.get then 1 else 0 := by
  obtain ⟨indices, hVisit, hPerm⟩ := genIter_perm hSource hMax rng
  refine ⟨indices, rng.next, hVisit, ?_, fun i => ?_⟩
  · rw [hPerm.length_eq, List.length_range]
  · rw [hPerm.count_eq i, List.nodup_range.count]
    simp

/-- Five workers, visited with the second seed. -/
theorem genIter_visits_five : ∃ rng rng' : RandomGenerator .bits64, ∃ source indices,
    new 1 = .ok rng ∧ RandomIterSource.from ⟨5, by decide⟩ = .ok source ∧
    rng.genIter source = .ok (indices, rng') ∧ indices.length = 5 ∧
    ∀ i, indices.count i = if i < 5 then 1 else 0 := by
  obtain ⟨rng, hNew⟩ := new_ok (1 : BitVec Target.bits64.width)
  have hSource := RandomIterSource.from_eq (show 2 ≤ (⟨5, by decide⟩ : NonZero Nat).get by decide)
  obtain ⟨indices, rng', hVisit, hOnce⟩ := genIter_visits hSource (by decide) rng
  exact ⟨rng, rng', _, indices, hNew, hSource, hVisit, hOnce⟩

end RandomGenerator
end Yaar.Runtime
