import LazyLisp.Proofs.Discipline.Evaluation
import LazyLisp.Proofs.Iteration

/-!
# The elements of a range

A range is a cell with its first integer and a call for the others.  Forcing the
call evaluates it anew, in a global scope and in whatever store there is by then.
It names a primitive, which no binding hides, and its arguments are integers, so
that it evaluates to the range from the next integer on and does nothing else.  The
next integer is computed only where there is one up to the end, which is what keeps
the addition from wrapping round.

What holds of a range is proved from its end, on the number of integers that are
left (`rangeInduction`).

## Main results

* `toInt_add_one` — the next integer, where there is one.
* `Operator.yields_rangeFrom` — a range yields its interval.
* `Operator.forceCells_rangeFrom` — the cell after so many others is a range in its
  own right.
* `Operator.range_enumerates` — both, for the value of a call.
-/

namespace LazyLisp

open Evaluation

/-! ## Intervals -/

/-- The integers from one to another one, in order.  If the other one comes first it
stands alone. -/
def interval (low high : Int) : List Int :=
  if low ≤ high then (List.range ((high - low).toNat + 1)).map fun k : Nat => low + k else [high]

theorem interval_of_ge {low high : Int} (h : high ≤ low) : interval low high = [high] := by
  rw [interval]
  by_cases hle : low ≤ high
  · obtain rfl : low = high := Int.le_antisymm hle h
    simp
  · rw [if_neg hle]

/-- A proper interval begins with its lower bound. -/
theorem interval_of_lt {low high : Int} (h : low < high) :
    interval low high = low :: interval (low + 1) high := by
  have hcount : (high - low).toNat = (high - (low + 1)).toNat + 1 := by omega
  rw [interval, if_pos (Int.le_of_lt h), interval, if_pos (Int.add_one_le_iff.mpr h), hcount,
    List.range_succ_eq_map, List.map_cons, List.map_map]
  congr 1
  · exact Int.add_zero low
  · refine List.map_congr_left fun k _ => ?_
    show low + ((k + 1 : Nat) : Int) = low + 1 + k
    omega

/-- Below another integer of the same width, the next integer is one more. -/
theorem toInt_add_one {low high : Int64} (h : low.toInt < high.toInt) :
    (low + 1).toInt = low.toInt + 1 := by
  have hlow : -2 ^ 63 ≤ low.toInt := low.minValue_le_toInt
  have hhigh : high.toInt ≤ 2 ^ 63 - 1 := high.toInt_le
  rw [Int64.toInt_add, Int64.toInt_one]
  exact Int.bmod_eq_of_le (by omega) (by omega)

/-- What holds at the end of a range and past it, and before it if it holds of the
next integer, holds of all. -/
theorem rangeInduction {P : Int64 → Prop} (high : Int64)
    (past : ∀ low : Int64, high.toInt ≤ low.toInt → P low)
    (below : ∀ low : Int64, low.toInt < high.toInt → P (low + 1) → P low) (low : Int64) :
    P low := by
  generalize hleft : (high.toInt - low.toInt).toNat = left
  induction left generalizing low with
  | zero => exact past low (by omega)
  | succ left ih =>
      have hlt : low.toInt < high.toInt := by omega
      have hnext := toInt_add_one hlt
      exact below low hlt (ih (low + 1) (by omega))

/-- The elements of a range. -/
def rangeItems (low high : Int64) : List Int64 :=
  (interval low.toInt high.toInt).map Int64.ofInt

theorem rangeItems_of_ge {low high : Int64} (h : high.toInt ≤ low.toInt) :
    rangeItems low high = [high] := by
  rw [rangeItems, interval_of_ge h, List.map_singleton, Int64.ofInt_toInt]

/-- The items of a range are counted up one by one, which does not overflow below
the upper bound. -/
theorem rangeItems_of_lt {low high : Int64} (h : low.toInt < high.toInt) :
    rangeItems low high = low :: rangeItems (low + 1) high := by
  rw [rangeItems, rangeItems, interval_of_lt h, List.map_cons, Int64.ofInt_toInt, toInt_add_one h]

/-- None of them is out of reach. -/
theorem map_toInt_rangeItems (low high : Int64) :
    (rangeItems low high).map Int64.toInt = interval low.toInt high.toInt := by
  induction low using rangeInduction high with
  | past low h => rw [rangeItems_of_ge h, interval_of_ge h, List.map_singleton]
  | below low h ih =>
      rw [rangeItems_of_lt h, interval_of_lt h, List.map_cons, ih, toInt_add_one h]

/-! ## Ranges -/

namespace Operator

variable {low high : Int64}

/-- A range that is not at its end is one ready cell and a deferred call for the
others. -/
theorem rangeFrom_of_lt (h : low.toInt < high.toInt) (scope : Scope) :
    rangeFrom low high scope = .lazyCell (.integer low) (rangeCall (low + 1) high) scope.root := by
  rw [rangeFrom, if_pos h]
  rfl

/-- The scope shows in nothing that is compared. -/
theorem identical_rangeFrom (low high : Int64) (scope scope' : Scope) :
    (rangeFrom low high scope).identical (rangeFrom low high scope') = true := by
  by_cases h : low.toInt < high.toInt
  · rw [rangeFrom_of_lt h, rangeFrom_of_lt h]
    simp [Value.identical, Value.allIdentical, Value.integer, Number.identical, rangeCall]
  · rw [rangeFrom_past h, rangeFrom_past h]
    simp [Value.identical, Value.integer, Number.identical]

/-- The rest of a range is the range of the rest. -/
theorem forceRest_rangeCall (fuel : Nat) (low high : Int64) (scope : Scope) (τ : Store) :
    forceRest (evaluate (fuel + 2)) (rangeCall low high) scope.root τ =
      .done (rangeFrom low high scope) τ := by
  have hvalue : evaluate (fuel + 2) (rangeCall low high) scope.root τ =
      .done (rangeFrom low high scope) τ := rfl
  have hsequence : (rangeFrom low high scope).isSequence = true := by
    rw [rangeFrom]
    split <;> rfl
  rw [forceRest, Eval.bind_done hvalue, if_pos hsequence]
  rfl

/-- A range yields its interval. -/
theorem yields_rangeFrom (fuel : Nat) (low high : Int64) (scope : Scope) (τ : Store) :
    (Cursor.before (rangeFrom low high scope)).Yields (evaluate (fuel + 2)) τ
      ((rangeItems low high).map .integer) := by
  induction low using rangeInduction high with
  | past low h =>
      rw [rangeItems_of_ge h, rangeFrom_past (Int.not_lt.mpr h)]
      exact .element rfl (.finished rfl)
  | below low h ih =>
      rw [rangeItems_of_lt h, rangeFrom_of_lt h, List.map_cons]
      exact .element rfl (.pending (forceRest_rangeCall fuel (low + 1) high scope τ) ih)

/-- The cell after so many others is the range from the integer there. -/
theorem forceCells_rangeFrom (fuel : Nat) (scope : Scope) (τ : Store) {middle : Int64} {k : Nat}
    (hmiddle : middle.toInt = low.toInt + k) (hle : middle.toInt ≤ high.toInt) :
    ∃ cells, forceCells (evaluate (fuel + 2)) k (rangeFrom low high scope) τ =
        .done (cells, none) τ ∧
      (rangeFrom low high scope :: cells)[k]? = some (rangeFrom middle high scope) := by
  induction k generalizing low with
  | zero =>
      obtain rfl : middle = low := Int64.toInt_inj.mp (by omega)
      exact ⟨[], rfl, rfl⟩
  | succ k ih =>
      have hlt : low.toInt < high.toInt := by omega
      have hnext := toInt_add_one hlt
      have hrest : middle.toInt = (low + 1).toInt + k := by omega
      obtain ⟨cells, hforced, hcell⟩ := ih hrest
      refine ⟨rangeFrom (low + 1) high scope :: cells, ?_, hcell⟩
      rw [rangeFrom_of_lt hlt, forceCells]
      simp only [forceTail?, forceRest_rangeCall, hforced]

/-- The value of the call of a range is the same in every scope and store: forcing
and iterating it never looks at what is bound.  Asked for elements, it answers the
integers of its interval and then the end, without a failure and with the store as
it was; and the cell after so many others is identical to the value that the range
from the integer there has, wherever that is evaluated. -/
theorem range_enumerates (low high : Int64) (span : Span) (scope : Scope) :
    ∃ (s : Value) (items : List Int64), (∀ fuel σ, evaluate (fuel + 2)
        (.call (.symbol "range") [.integer low, .integer high] span) scope σ = .done s σ) ∧
      items.map Int64.toInt = interval low.toInt high.toInt ∧
      (∀ fuel σ m, answers (Cursor.next (evaluate (fuel + 2))) (items.length + m)
          (some (.before s)) σ =
        .done (items.map (fun n => .element (.integer n)) ++ List.replicate m .finished) σ) ∧
      ∀ k : Nat, low.toInt + k ≤ high.toInt → ∃ (middle : Int64) (cell : Value),
        middle.toInt = low.toInt + k ∧
        (∀ fuel σ, ∃ cells, forceCells (evaluate (fuel + 2)) k s σ = .done (cells, none) σ ∧
          (s :: cells)[k]? = some cell) ∧
        ∀ fuel σ span' scope', ∃ v, evaluate (fuel + 2)
            (.call (.symbol "range") [.integer middle, .integer high] span') scope' σ =
          .done v σ ∧ cell.identical v = true := by
  refine ⟨rangeFrom low high scope, rangeItems low high, fun fuel σ => rfl,
    map_toInt_rangeItems low high, fun fuel σ m => ?_, fun k hk => ?_⟩
  · have hanswers := (yields_rangeFrom fuel low high scope σ).answers_eq m
    rwa [List.length_map, List.map_map] at hanswers
  · have hmiddle : (Int64.ofInt (low.toInt + k)).toInt = low.toInt + k := by
      have hlow : -2 ^ 63 ≤ low.toInt := low.minValue_le_toInt
      have hhigh : high.toInt ≤ 2 ^ 63 - 1 := high.toInt_le
      exact Int64.toInt_ofInt_of_le (by omega) (by omega)
    refine ⟨Int64.ofInt (low.toInt + k), rangeFrom _ high scope, hmiddle, fun fuel σ => ?_,
      fun fuel σ span' scope' => ⟨_, rfl, identical_rangeFrom _ high scope scope'⟩⟩
    exact forceCells_rangeFrom fuel scope σ hmiddle (by omega)

/-- The last two integers, where the name of the operator is bound to something
else. -/
theorem range_enumerates_limit :
    let low : Int64 := Int64.maxValue - 1
    let high : Int64 := Int64.maxValue
    let σ : Store := ⟨#[[("range", .nil)]], 0, ""⟩
    low.toInt + (1 : Nat) ≤ high.toInt ∧
      ∃ s, evaluate 2 (.call (.symbol "range") [.integer low, .integer high] ⟨0, 47⟩)
          (.global 0) σ = .done s σ ∧
        answers (Cursor.next (evaluate 2)) 3 (some (.before s)) σ =
          .done [.element (.integer low), .element (.integer high), .finished] σ ∧
        ∃ cells cell, forceCells (evaluate 2) 1 s σ = .done (cells, none) σ ∧
          (s :: cells)[1]? = some cell ∧ cell.identical (.lastCell (.integer high)) = true := by
  intro low high σ
  have hbelow : low.toInt + (1 : Nat) ≤ high.toInt := by decide
  obtain ⟨s, items, hvalue, hitems, hanswers, hcells⟩ :=
    range_enumerates low high ⟨0, 47⟩ (.global 0)
  obtain rfl : items = [low, high] := by
    have hboth : interval low.toInt high.toInt = [low, high].map Int64.toInt := by decide
    exact (List.map_inj_right fun _ _ => Int64.toInt_inj.mp).mp (hitems.trans hboth)
  obtain ⟨middle, cell, hmiddle, hforced, hsame⟩ := hcells 1 hbelow
  obtain rfl : middle = high := Int64.toInt_inj.mp (hmiddle.trans (by decide))
  obtain ⟨cells, hrun, hcell⟩ := hforced 0 σ
  obtain ⟨v, hv, hidentical⟩ := hsame 0 σ ⟨0, 0⟩ (.global 0)
  have hlast : v = .lastCell (.integer high) := by
    have hrange : Outcome.done (rangeFrom high high (.global 0)) σ = .done v σ := hv
    rw [← (Outcome.done.inj hrange).1, rangeFrom_past (Int.lt_irrefl _)]
  exact ⟨hbelow, s, hvalue 0 σ, hanswers 0 σ 1, cells, cell, hrun, hcell, hlast ▸ hidentical⟩

end Operator

end LazyLisp
