import LazyLisp.Evaluation.Operators
import LazyLisp.Proofs.Widening

/-!
# Arithmetic on integers is exact

Sum, difference, product and quotient go through their arguments from left to
right and keep one 64-bit integer.  That they never wrap is a statement about
every intermediate result, for a later argument may bring back into range what
an earlier one took out of it.  Here the fold of the exact operation over
unbounded integers says what the results are, and `Exact` that all of them are
in range and that nothing is divided by zero.

The place where this breaks down is found from left to right as well.  It is
the first argument that is no number, or the first integer that the exact fold
cannot take; whatever follows it plays no part.

## Main results

* `Fold.apply_integers` — one step of a fold, all cases of it.
* `Fold.arithmetic_append` — arguments that are exact leave their exact result
  to the ones after them.
* `Fold.exact_or_faulty` — a row of integers and values that are no numbers
  is exact, or it has a first fault.
* `run_remainder_failed_iff`, `quotient_remainder` — the remainder, alone and
  beside the quotient.
* `arithmetic_exact_or_error` — all of it, for the operators.
-/

namespace LazyLisp

/-! ## The range of the integers -/

/-- The integer is one of 64 bits. -/
def Fits (n : Int) : Prop := Int64.minValue.toInt ≤ n ∧ n ≤ Int64.maxValue.toInt

instance (n : Int) : Decidable (Fits n) := inferInstanceAs (Decidable (_ ∧ _))

/-- What 64 bits hold is in their range. -/
theorem fits_toInt (n : Int64) : Fits n.toInt := ⟨Int64.minValue_le_toInt n, Int64.toInt_le n⟩

/-- An integer in the range is represented. -/
theorem ofInt?_of_fits {n : Int} (h : Fits n) : Number.ofInt? n = some (Int64.ofInt n) := if_pos h

/-- An integer outside of the range is not represented. -/
theorem ofInt?_of_not_fits {n : Int} (h : ¬ Fits n) : Number.ofInt? n = none := if_neg h

/-- The representation of an integer in the range has its value. -/
theorem toInt_ofInt_of_fits {n : Int} (h : Fits n) : (Int64.ofInt n).toInt = n :=
  Number.toInt_ofInt? (ofInt?_of_fits h)

/-! ## The folds -/

/-- The operations that go through any number of arguments. -/
inductive Fold where
  | sum
  | difference
  | product
  | quotient
deriving DecidableEq

namespace Fold

/-- The operator of a fold. -/
def operator : Fold → Operator
  | .sum => .add
  | .difference => .subtract
  | .product => .multiply
  | .quotient => .divide

/-- What it does with two numbers. -/
def apply : Fold → Number → Number → Except Number.Fault Number
  | .sum => Number.add
  | .difference => Number.sub
  | .product => Number.mul
  | .quotient => Number.div

/-- What it stands for on unbounded integers. -/
def exact : Fold → Int → Int → Int
  | .sum => (· + ·)
  | .difference => (· - ·)
  | .product => (· * ·)
  | .quotient => Int.tdiv

/-- The exact result of going on with these arguments. -/
def total (fold : Fold) (start : Int) (args : List Int64) : Int :=
  args.foldl (fun acc n => fold.exact acc n.toInt) start

/-- Going on with these arguments, every result on the way is in range and no
divisor is zero. -/
def ExactFrom (fold : Fold) (start : Int) (args : List Int64) : Prop :=
  (∀ k, Fits (fold.total start (args.take k))) ∧
    (fold = .quotient → ∀ n ∈ args, n.toInt ≠ 0)

/-- The exact result of a row of arguments, of which the first is where the
fold starts. -/
def result (fold : Fold) : List Int64 → Int
  | [] => 0
  | first :: rest => fold.total first.toInt rest

/-- The same for a row of arguments. -/
def Exact (fold : Fold) : List Int64 → Prop
  | [] => True
  | first :: rest => fold.ExactFrom first.toInt rest

/-- Why the fold cannot take an argument after others. -/
def faultAt (fold : Fold) (before : List Int64) (n : Int64) : Number.Fault :=
  if fold = .quotient ∧ n.toInt = 0 then .divisionByZero
  else .overflow fold.operator.name (Int64.ofInt (fold.result before)) n

variable {fold : Fold} {acc : Int} {first n : Int64} {before rest args : List Int64}

/-! ## The exact fold -/

@[simp] theorem total_nil : fold.total acc [] = acc := rfl

@[simp] theorem total_cons :
    fold.total acc (n :: rest) = fold.total (fold.exact acc n.toInt) rest := rfl

theorem exactFrom_nil : fold.ExactFrom acc [] ↔ Fits acc := by
  simp [ExactFrom]

/-- A fold is exact if its start fits, the first number may be used, and the rest
is exact from there. -/
theorem exactFrom_cons :
    fold.ExactFrom acc (n :: rest) ↔
      Fits acc ∧ (fold = .quotient → n.toInt ≠ 0) ∧
        fold.ExactFrom (fold.exact acc n.toInt) rest := by
  constructor
  · rintro ⟨range, divisors⟩
    refine ⟨range 0, fun h => divisors h n (by simp), fun k => range (k + 1), fun h m hm => ?_⟩
    exact divisors h m (by simp [hm])
  · rintro ⟨start, divisor, range, divisors⟩
    refine ⟨fun k => ?_, fun h => List.forall_mem_cons.mpr ⟨divisor h, divisors h⟩⟩
    cases k with
    | zero => exact start
    | succ k => exact range k

/-- An exact fold starts with a value in the range. -/
theorem ExactFrom.start (h : fold.ExactFrom acc args) : Fits acc := h.1 0

/-- A fold over two rows is exact if the first one is and the second one is from
its total. -/
theorem exactFrom_append :
    fold.ExactFrom acc (before ++ rest) ↔
      fold.ExactFrom acc before ∧ fold.ExactFrom (fold.total acc before) rest := by
  induction before generalizing acc with
  | nil =>
      rw [List.nil_append, total_nil, exactFrom_nil]
      exact ⟨fun h => ⟨h.start, h⟩, And.right⟩
  | cons n before ih =>
      rw [List.cons_append, exactFrom_cons, exactFrom_cons, ih, total_cons]
      simp only [and_assoc]

private theorem ExactFrom.total (h : fold.ExactFrom acc args) : Fits (fold.total acc args) := by
  rw [← List.append_nil args, exactFrom_append] at h
  exact h.2.start

/-- The result of an exact fold is in the range. -/
theorem Exact.result (h : fold.Exact args) (nonempty : args ≠ []) : Fits (fold.result args) := by
  cases args with
  | nil => exact absurd rfl nonempty
  | cons first rest => exact ExactFrom.total h

/-! ## One step -/

private theorem combine_integers (name : String) (op : Int → Int → Int)
    (float : Float → Float → Float) (a n : Int64) :
    Number.combine name op float (.integer a) (.integer n) =
      if Fits (op a.toInt n.toInt) then .ok (.integer (Int64.ofInt (op a.toInt n.toInt)))
      else .error (.overflow name a n) := by
  by_cases range : Fits (op a.toInt n.toInt)
  · rw [if_pos range, Number.combine, ofInt?_of_fits range]
  · rw [if_neg range, Number.combine, ofInt?_of_not_fits range]

/-- One step on two integers: it refuses a zero divisor, it gives the exact
result if that is in range, and otherwise it overflows. -/
theorem apply_integers (fold : Fold) (a n : Int64) :
    fold.apply (.integer a) (.integer n) =
      if fold = .quotient ∧ n.toInt = 0 then .error .divisionByZero
      else if Fits (fold.exact a.toInt n.toInt) then
        .ok (.integer (Int64.ofInt (fold.exact a.toInt n.toInt)))
      else .error (.overflow fold.operator.name a n) := by
  cases fold with
  | quotient =>
      have divisor : ((Number.integer n).widen == 0) = true ↔ n.toInt = 0 :=
        Widening.toFloat_beq_zero_iff n
      simp only [apply, Number.div, divisor, combine_integers, true_and]
      rfl
  | sum | difference | product =>
      rw [if_neg nofun]
      simp only [apply, Number.add, Number.sub, Number.mul, combine_integers]
      rfl

/-- A step that is exact. -/
theorem apply_of_exactFrom {a : Int64} (h : fold.ExactFrom a.toInt (n :: rest)) :
    fold.apply (.integer a) (.integer n) =
      .ok (.integer (Int64.ofInt (fold.exact a.toInt n.toInt))) := by
  obtain ⟨-, divisor, next⟩ := exactFrom_cons.mp h
  rw [apply_integers, if_neg fun hzero => divisor hzero.1 hzero.2, if_pos next.start]

/-- A step that is not, after arguments that were. -/
theorem apply_of_not_exact {a : Int64} (h : ¬ fold.ExactFrom a.toInt [n]) :
    fold.apply (.integer a) (.integer n) = .error
      (if fold = .quotient ∧ n.toInt = 0 then .divisionByZero
        else .overflow fold.operator.name a n) := by
  rw [apply_integers]
  split
  · rfl
  · rename_i divisor
    have range : ¬ Fits (fold.exact a.toInt n.toInt) := fun range =>
      h (exactFrom_cons.mpr ⟨fits_toInt a, fun hq hn => divisor ⟨hq, hn⟩, exactFrom_nil.mpr range⟩)
    rw [if_neg range]

/-! ## The run of a fold -/

private theorem foldNumbers_of_ok {op : Operator} {f : Number → Number → Except Number.Fault Number}
    {a b : Number} {n : Int64} (h : f a (.integer n) = .ok b) (position : Nat)
    (after : List Value) :
    Operator.foldNumbers op f a position (.integer n :: after) =
      Operator.foldNumbers op f b (position + 1) after := by
  show (do let next ← Operator.arithmeticResult (f a (.integer n)); _) = _
  rw [h]
  rfl

private theorem foldNumbers_of_error {op : Operator}
    {f : Number → Number → Except Number.Fault Number}
    {a : Number} {n : Int64} {fault : Number.Fault} (h : f a (.integer n) = .error fault)
    (position : Nat) (after : List Value) :
    Operator.foldNumbers op f a position (.integer n :: after) = .error (.arithmetic fault) := by
  show (do let next ← Operator.arithmeticResult (f a (.integer n)); _) = _
  rw [h]
  rfl

private theorem foldNumbers_append {a : Int64} (h : fold.ExactFrom a.toInt before) (position : Nat)
    (after : List Value) :
    Operator.foldNumbers fold.operator fold.apply (.integer a) position
        (before.map Value.integer ++ after) =
      Operator.foldNumbers fold.operator fold.apply
        (.integer (Int64.ofInt (fold.total a.toInt before))) (position + before.length) after := by
  induction before generalizing a position with
  | nil => simp [Int64.ofInt_toInt]
  | cons n before ih =>
      obtain ⟨-, -, next⟩ := exactFrom_cons.mp h
      have value : (Int64.ofInt (fold.exact a.toInt n.toInt)).toInt = fold.exact a.toInt n.toInt :=
        toInt_ofInt_of_fits next.start
      rw [List.map_cons, List.cons_append, foldNumbers_of_ok (apply_of_exactFrom h),
        ih (by rwa [value]), value, total_cons, List.length_cons]
      congr 1
      omega

/-- Arguments that are exact leave their result to the ones after them. -/
theorem arithmetic_append (h : fold.Exact (first :: before)) (after : List Value) :
    Operator.arithmetic fold.operator fold.apply
        ((first :: before).map Value.integer ++ after) =
      (Operator.foldNumbers fold.operator fold.apply
        (.integer (Int64.ofInt (fold.result (first :: before)))) (before.length + 2) after).map
          Value.number := by
  have run := foldNumbers_append h 2 after
  rw [Nat.add_comm] at run
  simp only [List.map_cons, List.cons_append, Operator.arithmetic, Value.integer,
    Operator.expectNumber, result, ← run]
  rfl

/-- Arguments that are exact have their exact result. -/
theorem arithmetic_of_exact (h : fold.Exact args) (nonempty : args ≠ []) :
    Operator.arithmetic fold.operator fold.apply (args.map Value.integer) =
      .ok (.integer (Int64.ofInt (fold.result args))) := by
  cases args with
  | nil => exact absurd rfl nonempty
  | cons first rest =>
      have run := arithmetic_append h []
      rw [List.append_nil] at run
      rw [run]
      rfl

/-! ## The first fault -/

/-- The first fault of a row of arguments: one that is no number, or an
integer that the exact fold cannot take, after integers that it could. -/
inductive Faulty (fold : Fold) : List Value → Fault → Prop where
  | notNumber {before : List Int64} {v : Value} {after : List Value} (hbefore : fold.Exact before)
      (hv : ∀ n, v ≠ .number n) :
      Faulty fold (before.map Value.integer ++ v :: after)
        (.notNumber fold.operator (before.length + 1) v.kind)
  | inexact {before : List Int64} {n : Int64} {after : List Value} (hbefore : fold.Exact before)
      (hn : ¬ fold.Exact (before ++ [n])) :
      Faulty fold (before.map Value.integer ++ .integer n :: after)
        (.arithmetic (fold.faultAt before n))

private theorem expectNumber_of_not_number {v : Value} (hv : ∀ n, v ≠ .number n) (op : Operator)
    (position : Nat) :
    Operator.expectNumber op position v = .error (.notNumber op position v.kind) := by
  cases v with
  | number n => exact absurd rfl (hv n)
  | _ => rfl

/-- The first fault of the arguments is what the operation reports. -/
theorem arithmetic_of_faulty {args : List Value} {fault : Fault} (h : fold.Faulty args fault) :
    Operator.arithmetic fold.operator fold.apply args = .error fault := by
  cases h with
  | @notNumber before v after hbefore hv =>
      cases before with
      | nil => simp [Operator.arithmetic, expectNumber_of_not_number hv, bind, Except.bind]
      | cons first before =>
          rw [arithmetic_append hbefore, Operator.foldNumbers, expectNumber_of_not_number hv]
          rfl
  | @inexact before n after hbefore hn =>
      cases before with
      | nil => exact absurd (exactFrom_nil.mpr (fits_toInt n)) hn
      | cons first before =>
          have value := toInt_ofInt_of_fits (hbefore.result (List.cons_ne_nil first before))
          have single :
              ¬ fold.ExactFrom (Int64.ofInt (fold.result (first :: before))).toInt [n] := by
            rw [value]
            exact fun single => hn (exactFrom_append.mpr ⟨hbefore, single⟩)
          rw [arithmetic_append hbefore, foldNumbers_of_error (apply_of_not_exact single)]
          rfl

/-- A row of integers and values that are no numbers is exact, or it has a
first fault. -/
theorem exact_or_faulty (fold : Fold) {args : List Value}
    (h : ∀ v ∈ args, (∃ n, v = .integer n) ∨ ∀ n, v ≠ .number n) :
    (∃ ns, args = ns.map Value.integer ∧ fold.Exact ns) ∨ ∃ fault, fold.Faulty args fault := by
  -- The induction is on what is left, after integers that were exact.
  have from_ (before : List Int64) (hbefore : fold.Exact before) :
      (∃ ns, before.map Value.integer ++ args = ns.map Value.integer ∧ fold.Exact ns) ∨
        ∃ fault, fold.Faulty (before.map Value.integer ++ args) fault := by
    induction args generalizing before with
    | nil => exact .inl ⟨before, by simp, hbefore⟩
    | cons v rest ih =>
        obtain ⟨hv, hrest⟩ := List.forall_mem_cons.mp h
        rcases hv with ⟨n, rfl⟩ | hv
        · by_cases hn : fold.Exact (before ++ [n])
          · have := ih hrest (before ++ [n]) hn
            rwa [List.map_append, List.append_assoc] at this
          · exact .inr ⟨_, .inexact hbefore hn⟩
        · exact .inr ⟨_, .notNumber hbefore hv⟩
  exact from_ [] trivial

theorem run_operator (fold : Fold) (ev : Evaluator) (scope : Scope) (args : List Value) :
    fold.operator.run ev scope args =
      Eval.ofExcept (Operator.arithmetic fold.operator fold.apply args) := by
  cases fold <;> rfl

section Runs

variable (ev : Evaluator) (scope : Scope) (σ : Store)

/-- An exact fold ends with its result and leaves the store alone. -/
theorem run_of_exact (h : fold.Exact args) (nonempty : args ≠ []) :
    fold.operator.run ev scope (args.map Value.integer) σ =
      .done (.integer (Int64.ofInt (fold.result args))) σ := by
  rw [run_operator, arithmetic_of_exact h nonempty]
  rfl

/-- A fold that is not exact fails and leaves the store alone. -/
theorem run_of_faulty {args : List Value} {fault : Fault} (h : fold.Faulty args fault) :
    fold.operator.run ev scope args σ = .failed (.of fault) σ := by
  rw [run_operator, arithmetic_of_faulty h]
  rfl

/-- The fault of integers is one of arithmetic. -/
theorem exists_faulty_of_not_exact (h : ¬ fold.Exact args) :
    ∃ fault, fold.Faulty (args.map Value.integer) (.arithmetic fault) ∧
      (Fault.arithmetic fault).category = .arithmetic := by
  have integers : ∀ v ∈ args.map Value.integer, ∃ n, v = Value.integer n := by
    intro v hv
    obtain ⟨n, -, rfl⟩ := List.mem_map.mp hv
    exact ⟨n, rfl⟩
  rcases exact_or_faulty fold fun v hv => .inl (integers v hv) with
    ⟨ns, same, exact⟩ | ⟨fault, hfault⟩
  · have injective : Function.Injective Value.integer := fun a b hab => by cases hab; rfl
    exact absurd (injective.list_map same ▸ exact) h
  · generalize row : args.map Value.integer = values at hfault integers
    cases hfault with
    | notNumber _ hv =>
        obtain ⟨n, rfl⟩ := integers _ (List.mem_append_right _ (List.mem_cons_self ..))
        exact absurd rfl (hv _)
    | inexact hbefore hn =>
        refine ⟨_, .inexact hbefore hn, ?_⟩
        unfold faultAt
        split <;> rfl

/-- On integers a fold has its exact result exactly if all of it is in range,
and it fails otherwise. -/
theorem run_integers (nonempty : args ≠ []) :
    ((∃ n : Int64, fold.operator.run ev scope (args.map Value.integer) σ = .done (.integer n) σ ∧
        n.toInt = fold.result args) ↔ fold.Exact args) ∧
      (¬ fold.Exact args → ∃ e, fold.operator.run ev scope (args.map Value.integer) σ =
        .failed e σ ∧ e.fault.category = .arithmetic) := by
  have fails (h : ¬ fold.Exact args) : ∃ e, fold.operator.run ev scope (args.map Value.integer) σ =
      .failed e σ ∧ e.fault.category = .arithmetic := by
    obtain ⟨fault, hfault, category⟩ := exists_faulty_of_not_exact h
    exact ⟨_, run_of_faulty ev scope σ hfault, category⟩
  refine ⟨⟨?_, fun h => ?_⟩, fails⟩
  · rintro ⟨n, hdone, -⟩
    by_contra h
    obtain ⟨e, hfailed, -⟩ := fails h
    cases hdone.symm.trans hfailed
  · exact ⟨_, run_of_exact ev scope σ h nonempty, toInt_ofInt_of_fits (h.result nonempty)⟩

/-- On integers and values that are no numbers a fold fails exactly with the
first fault. -/
theorem run_failed_iff {args : List Value} (nonempty : args ≠ [])
    (h : ∀ v ∈ args, (∃ n, v = .integer n) ∨ ∀ n, v ≠ .number n) (e : Failure) (τ : Store) :
    fold.operator.run ev scope args σ = .failed e τ ↔
      τ = σ ∧ ∃ fault, e = .of fault ∧ fold.Faulty args fault := by
  constructor
  · intro hfailed
    rcases exact_or_faulty fold h with ⟨ns, rfl, exact⟩ | ⟨fault, hfault⟩
    · have hdone := run_of_exact ev scope σ exact (by simpa using nonempty)
      cases hdone.symm.trans hfailed
    · cases (run_of_faulty ev scope σ hfault).symm.trans hfailed
      exact ⟨rfl, fault, rfl, hfault⟩
  · rintro ⟨rfl, fault, rfl, hfault⟩
    exact run_of_faulty ev scope τ hfault

end Runs

end Fold

/-! ## The remainder -/

/-- The quotient of two 64-bit integers is one, but for the least of them and
minus one. -/
theorem fits_tdiv_iff (a b : Int64) :
    Fits (Int.tdiv a.toInt b.toInt) ↔ ¬ (a = Int64.minValue ∧ b = -1) := by
  have least : Int64.minValue.toInt = -2 ^ 63 := by decide
  have most : Int64.maxValue.toInt = 2 ^ 63 - 1 := by decide
  have minusOne : (-1 : Int64).toInt = -1 := by decide
  obtain ⟨low, high⟩ := fits_toInt a
  rw [← Int64.toInt_inj, ← Int64.toInt_inj, minusOne, Fits]
  rw [least] at low ⊢
  rw [most] at high ⊢
  by_cases small : b.toInt.natAbs ≤ 1
  · obtain hb | hb | hb : b.toInt = -1 ∨ b.toInt = 0 ∨ b.toInt = 1 := by omega
    · rw [hb, Int.tdiv_neg, Int.tdiv_one]
      omega
    · rw [hb, Int.tdiv_zero]
      omega
    · rw [hb, Int.tdiv_one]
      omega
  · have half : (Int.tdiv a.toInt b.toInt).natAbs ≤ a.toInt.natAbs / 2 := by
      rw [Int.natAbs_tdiv]
      exact Nat.div_le_div_left (by omega) (by omega)
    omega

/-- A remainder is smaller than the divisor in size. -/
theorem natAbs_tmod_lt (a : Int) {b : Int} (hb : b ≠ 0) : (Int.tmod a b).natAbs < b.natAbs := by
  rw [Int.natAbs_tmod]
  exact Nat.mod_lt _ (Int.natAbs_pos.mpr hb)

private theorem fits_tmod (a : Int64) {b : Int64} (hb : b.toInt ≠ 0) :
    Fits (Int.tmod a.toInt b.toInt) := by
  have least : Int64.minValue.toInt = -2 ^ 63 := by decide
  have most : Int64.maxValue.toInt = 2 ^ 63 - 1 := by decide
  have magnitude := natAbs_tmod_lt a.toInt hb
  obtain ⟨low, high⟩ := fits_toInt b
  rw [least] at low
  rw [most] at high
  rw [Fits, least, most]
  omega

/-- One remainder: it refuses a zero divisor and the one quotient that is out
of range. -/
theorem rem_integers (a b : Int64) :
    Number.rem (.integer a) (.integer b) =
      if b.toInt = 0 then .error .remainderByZero
      else if a = Int64.minValue ∧ b = -1 then .error (.overflow "%" a b)
      else .ok (.integer (Int64.ofInt (Int.tmod a.toInt b.toInt))) := by
  have range := fits_tdiv_iff a b
  rw [Number.rem]
  by_cases corner : a = Int64.minValue ∧ b = -1
  · rw [if_pos corner, ofInt?_of_not_fits fun h => range.mp h corner, if_pos rfl]
  · rw [if_neg corner, ofInt?_of_fits (range.mpr corner), if_neg (Option.some_ne_none _)]

section Runs

variable (ev : Evaluator) (scope : Scope) (σ : Store)

theorem run_remainder (a b : Int64) :
    Operator.run ev scope [.integer a, .integer b] .remainder =
      Eval.ofExcept ((Operator.arithmeticResult (Number.rem (.integer a) (.integer b))).map
        Value.number) := rfl

/-- The remainder of two integers, apart from the corner where the division
overflows. -/
theorem run_remainder_of_ok {a b : Int64} (hb : b.toInt ≠ 0)
    (hcorner : ¬ (a = Int64.minValue ∧ b = -1)) :
    Operator.run ev scope [.integer a, .integer b] .remainder σ =
      .done (.integer (Int64.ofInt (Int.tmod a.toInt b.toInt))) σ := by
  rw [run_remainder, rem_integers, if_neg hb, if_neg hcorner]
  rfl

/-- The remainder fails exactly for a zero divisor and where the quotient
overflows. -/
theorem run_remainder_failed_iff (a b : Int64) :
    (∃ e, Operator.run ev scope [.integer a, .integer b] .remainder σ = .failed e σ ∧
      e.fault.category = .arithmetic) ↔ b = 0 ∨ (a = Int64.minValue ∧ b = -1) := by
  have zero : b.toInt = 0 ↔ b = 0 := Int64.toInt_inj (y := 0)
  rw [← zero]
  constructor
  · rintro ⟨e, hfailed, -⟩
    by_contra h
    rw [not_or] at h
    cases (run_remainder_of_ok ev scope σ h.1 h.2).symm.trans hfailed
  · intro h
    rw [run_remainder, rem_integers]
    by_cases hb : b.toInt = 0
    · rw [if_pos hb]
      exact ⟨_, rfl, rfl⟩
    · rw [if_neg hb, if_pos (h.resolve_left hb)]
      exact ⟨_, rfl, rfl⟩

/-- Quotient and remainder, where both are there, make up the dividend; the
remainder is smaller than the divisor and has the dividend's sign. -/
theorem quotient_remainder {a b : Int64} {v w : Value} {τ υ : Store}
    (hquotient : Operator.run ev scope [.integer a, .integer b] .divide σ = .done v τ)
    (hremainder : Operator.run ev scope [.integer a, .integer b] .remainder σ = .done w υ) :
    ∃ q r : Int64, v = .integer q ∧ w = .integer r ∧
      a.toInt = q.toInt * b.toInt + r.toInt ∧ r.toInt.natAbs < b.toInt.natAbs ∧
      (r.toInt = 0 ∨ r.toInt.sign = a.toInt.sign) := by
  have allowed : ¬ (b = 0 ∨ (a = Int64.minValue ∧ b = -1)) := by
    intro h
    obtain ⟨e, hfailed, -⟩ := (run_remainder_failed_iff ev scope σ a b).mpr h
    cases hremainder.symm.trans hfailed
  rw [not_or, ← Int64.toInt_inj] at allowed
  obtain ⟨hb, hcorner⟩ := allowed
  have exact : Fold.Exact .quotient [a, b] :=
    Fold.exactFrom_cons.mpr ⟨fits_toInt a, fun _ => hb,
      Fold.exactFrom_nil.mpr ((fits_tdiv_iff a b).mpr hcorner)⟩
  have hdone := Fold.run_of_exact ev scope σ exact (List.cons_ne_nil _ _)
  cases hdone.symm.trans hquotient
  cases (run_remainder_of_ok ev scope σ hb hcorner).symm.trans hremainder
  refine ⟨_, _, rfl, rfl, ?_⟩
  rw [toInt_ofInt_of_fits (exact.result (List.cons_ne_nil _ _)),
    toInt_ofInt_of_fits (fits_tmod a hb)]
  refine ⟨(Int.tdiv_mul_add_tmod a.toInt b.toInt).symm, natAbs_tmod_lt a.toInt hb, ?_⟩
  have sign := Int.sign_tmod a.toInt b.toInt
  split at sign
  · exact .inl (Int.sign_eq_zero_iff_zero.mp sign)
  · exact .inr sign

/-! ## All of it -/

/-- Integer arithmetic is exact or an error.  A fold over integers returns its
exact result if all of it is in range and no divisor is zero, and fails with
an arithmetic error otherwise; on integers and values that are no numbers it
fails with the first fault of the row.  The remainder fails for a zero divisor
and where the quotient overflows, and where both succeed they make up the
dividend. -/
theorem arithmetic_exact_or_error :
    (∀ (fold : Fold) (args : List Int64), args ≠ [] →
      ((∃ n : Int64, fold.operator.run ev scope (args.map Value.integer) σ =
          .done (.integer n) σ ∧ n.toInt = fold.result args) ↔ fold.Exact args) ∧
      (¬ fold.Exact args → ∃ e, fold.operator.run ev scope (args.map Value.integer) σ =
        .failed e σ ∧ e.fault.category = .arithmetic)) ∧
    (∀ (fold : Fold) (args : List Value), args ≠ [] →
      (∀ v ∈ args, (∃ n, v = .integer n) ∨ ∀ n, v ≠ .number n) → ∀ e τ,
        fold.operator.run ev scope args σ = .failed e τ ↔
          τ = σ ∧ ∃ fault, e = .of fault ∧ fold.Faulty args fault) ∧
    (∀ a b : Int64,
      ((∃ e, Operator.run ev scope [.integer a, .integer b] .remainder σ = .failed e σ ∧
        e.fault.category = .arithmetic) ↔ b = 0 ∨ (a = Int64.minValue ∧ b = -1)) ∧
      (¬ (b = 0 ∨ (a = Int64.minValue ∧ b = -1)) → ∃ r : Int64,
        Operator.run ev scope [.integer a, .integer b] .remainder σ = .done (.integer r) σ)) ∧
    ∀ (a b : Int64) (v w : Value) (τ υ : Store),
      Operator.run ev scope [.integer a, .integer b] .divide σ = .done v τ →
      Operator.run ev scope [.integer a, .integer b] .remainder σ = .done w υ →
      ∃ q r : Int64, v = .integer q ∧ w = .integer r ∧
        a.toInt = q.toInt * b.toInt + r.toInt ∧ r.toInt.natAbs < b.toInt.natAbs ∧
        (r.toInt = 0 ∨ r.toInt.sign = a.toInt.sign) := by
  refine ⟨fun _ _ => Fold.run_integers ev scope σ, fun _ _ => Fold.run_failed_iff ev scope σ,
    fun a b => ⟨run_remainder_failed_iff ev scope σ a b, fun h => ?_⟩,
    fun _ _ _ _ _ _ => quotient_remainder ev scope σ⟩
  rw [not_or, ← Int64.toInt_inj] at h
  exact ⟨_, run_remainder_of_ok ev scope σ h.1 h.2⟩

end Runs

/-- An overflow that a later argument would make good, an argument that is no
number before a zero divisor, and a negative dividend. -/
theorem arithmetic_exact_or_error_corners :
    let ev : Evaluator := fun _ _ => Eval.outOfFuel
    (∃ e, Operator.run ev (.global 0) ([Int64.maxValue, 1, -1].map Value.integer) .add .empty =
      .failed e .empty ∧ e.fault.category = .arithmetic) ∧
    (∃ e, Operator.run ev (.global 0) [.integer 1, .terminal, .integer 0] .divide .empty =
      .failed e .empty ∧ e.fault = .notNumber .divide 2 .terminal ∧ e.fault.category = .type) ∧
    ∃ q r : Int64,
      Operator.run ev (.global 0) [.integer (-7), .integer 2] .divide .empty =
        .done (.integer q) .empty ∧
      Operator.run ev (.global 0) [.integer (-7), .integer 2] .remainder .empty =
        .done (.integer r) .empty ∧
      (-7 : Int64).toInt = q.toInt * (2 : Int64).toInt + r.toInt := by
  intro ev
  obtain ⟨folds, faults, remainders, both⟩ := arithmetic_exact_or_error ev (.global 0) .empty
  refine ⟨?_, ?_, ?_⟩
  · refine (folds .sum [Int64.maxValue, 1, -1] nofun).2 fun h => ?_
    exact absurd (h.1 1) (by decide)
  · refine ⟨_, (faults .quotient [.integer 1, .terminal, .integer 0] nofun ?_ _ _).mpr
      ⟨rfl, _, rfl, @Fold.Faulty.notNumber _ [1] _ _ ?_ nofun⟩, rfl, rfl⟩
    · simp [Value.integer]
    · exact Fold.exactFrom_nil.mpr (by decide)
  · have exact : Fold.Exact .quotient [-7, 2] :=
      Fold.exactFrom_cons.mpr ⟨by decide, by decide, Fold.exactFrom_nil.mpr (by decide)⟩
    obtain ⟨n, hquotient, -⟩ := (folds .quotient [-7, 2] nofun).1.mpr exact
    obtain ⟨m, hremainder⟩ := (remainders (-7) 2).2 (by decide)
    obtain ⟨q, r, hq, hr, makesUp, -⟩ := both (-7) 2 _ _ _ _ hquotient hremainder
    cases hq
    cases hr
    exact ⟨_, _, hquotient, hremainder, makesUp⟩

end LazyLisp
