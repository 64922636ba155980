import LazyLisp.Proofs.Parts
import LazyLisp.Value.Equality
import Mathlib

/-!
# The laws of equality

Equality has three outcomes: two values are equal, they differ, or there is
no such question about them.  Rows are compared element by element up to the
first place that does not answer yes, so whether a difference or an error
decides depends on which of them comes first, at every depth.  Both sides
come to the same place, and so equality is symmetric all the same.

It is transitive where no integer is compared by way of a float: widening
takes many integers to one float, which equals them all.  And it is no
identity: it takes the terminal marker for the empty list.  Here that is said
as a law.  Putting empty lists in the place of terminal markers, at any
depth, changes no answer.

## Main results

* `toOption_allEqual_cons` — a row is its first place and then the others.
* `equals_comm` — symmetry, place by place.
* `equals_trans` — transitivity where the value in the middle has no floats.
* `toOption_equals_endsAsLists` — markers count as empty lists.
* `equals_partial_equivalence` — all of it together.
-/

namespace LazyLisp

/-! ## Numbers -/

namespace Number

/-- Numbers are compared in the same way from both sides, also where an integer is
widened. -/
theorem equals_comm (a b : Number) : a.equals b = b.equals a := by
  cases a with
  | integer n =>
      cases b with
      | integer m => exact BEq.comm
      | float y => exact BEq.comm
  | float x => cases b <;> exact BEq.comm

private theorem equals_of_identical {a b : Number} (h : a.identical b = true) :
    a.equals b = true := by
  cases a with
  | integer n =>
      cases b with
      | integer m => exact h
      | float y => cases h
  | float x =>
      cases b with
      | integer m => cases h
      | float y => exact h

/-- Two numbers that equal an integer equal each other. -/
theorem equals_trans {a b c : Number} (hb : b.kind ≠ .float) (hab : a.equals b = true)
    (hbc : b.equals c = true) : a.equals c = true := by
  cases b with
  | float y => exact absurd rfl hb
  | integer m =>
      cases a with
      | integer n =>
          have : n = m := by simpa [equals] using hab
          rwa [this]
      | float x =>
          cases c with
          | integer k =>
              have : m = k := by simpa [equals] using hbc
              rwa [← this]
          | float z => exact PartialEquivBEq.trans hab hbc

end Number

namespace Value

/-! ## Rows -/

/-- The elements of a finite list; the terminal marker counts as an empty
one. -/
def listItems? : Value → Option (List Value)
  | .pair cells => some cells.toList
  | .terminal => some []
  | _ => none

/-- Two vectors are equal if they have one length and agree place by place. -/
theorem equals_vector (as bs : List Value) :
    equals (.vector as) (.vector bs) =
      if as.length = bs.length then allEqual as bs else .ok false := by
  rw [equals]

/-- So are two lists, and markers that stand for them. -/
theorem equals_of_listItems {a b : Value} {as bs : List Value} (ha : a.listItems? = some as)
    (hb : b.listItems? = some bs) :
    a.equals b = if as.length = bs.length then allEqual as bs else .ok false := by
  cases a with
  | pair cells =>
      cases ha
      cases b with
      | pair others =>
          cases hb
          rw [equals, cellsEqual_eq_allEqual]
      | terminal =>
          cases hb
          cases cells <;> simp [equals, Chain.isEmpty]
      | _ => cases hb
  | terminal =>
      cases ha
      cases b with
      | pair others =>
          cases hb
          cases others <;> simp [equals, Chain.isEmpty]
      | terminal =>
          cases hb
          simp [equals]
      | _ => cases hb
  | _ => cases ha

/-- The answer about two rows is that about their first place, if it is not
yes, and that about the others, if it is. -/
theorem toOption_allEqual_cons (a b : Value) (as bs : List Value) :
    (allEqual (a :: as) (b :: bs)).toOption =
      (a.equals b).toOption.bind fun same =>
        if same then (allEqual as bs).toOption else some false := by
  rw [allEqual]
  cases a.equals b with
  | ok same => cases same <;> rfl
  | error fault => rfl

private theorem allEqual_eq_true_iff {as bs : List Value} (hlength : as.length = bs.length) :
    allEqual as bs = .ok true ↔ List.Forall₂ (fun a b => a.equals b = .ok true) as bs := by
  induction as generalizing bs with
  | nil =>
      cases bs with
      | nil => simp
      | cons b bs => cases hlength
  | cons a as ih =>
      cases bs with
      | nil => cases hlength
      | cons b bs =>
          rw [List.forall₂_cons, ← ih (Nat.succ.inj hlength), allEqual]
          split <;> simp_all

/-! ## Symmetry -/

private theorem toOption_allEqual_comm {as : List Value}
    (h : ∀ a ∈ as, ∀ b : Value, (a.equals b).toOption = (b.equals a).toOption) (bs : List Value) :
    (allEqual as bs).toOption = (allEqual bs as).toOption := by
  induction as generalizing bs with
  | nil => cases bs <;> simp [allEqual]
  | cons a as ih =>
      cases bs with
      | nil => simp [allEqual]
      | cons b bs =>
          obtain ⟨ha, has⟩ := List.forall_mem_cons.mp h
          rw [toOption_allEqual_cons, toOption_allEqual_cons, ha b, ih has bs]

private theorem toOption_rows_comm {as : List Value}
    (h : ∀ a ∈ as, ∀ b : Value, (a.equals b).toOption = (b.equals a).toOption) (bs : List Value) :
    (if as.length = bs.length then allEqual as bs else .ok false).toOption =
      (if bs.length = as.length then allEqual bs as else .ok false).toOption := by
  by_cases hlength : as.length = bs.length
  · rw [if_pos hlength, if_pos hlength.symm, toOption_allEqual_comm h bs]
  · rw [if_neg hlength, if_neg (Ne.symm hlength)]

/-- Two values are equal, different or not to be compared whichever of them
comes first. -/
theorem equals_comm (a b : Value) : (a.equals b).toOption = (b.equals a).toOption := by
  induction a using induction_on_parts generalizing b with
  | step a ih =>
      cases a with
      | vector as =>
          cases b with
          | vector bs =>
              rw [equals_vector, equals_vector]
              exact toOption_rows_comm ih bs
          | _ => simp [equals, Except.toOption]
      | pair as =>
          cases b with
          | pair bs =>
              rw [equals_of_listItems rfl rfl, equals_of_listItems rfl rfl]
              exact toOption_rows_comm ih bs.toList
          | _ => simp [equals, Except.toOption]
      | number n =>
          cases b with
          | number m => rw [equals, equals, Number.equals_comm]
          | _ => simp [equals, Except.toOption]
      | boolean p =>
          cases b with
          | boolean q => rw [equals, equals, BEq.comm]
          | _ => simp [equals, Except.toOption]
      | string s =>
          cases b with
          | string t => rw [equals, equals, BEq.comm]
          | _ => simp [equals, Except.toOption]
      | _ => cases b <;> simp [equals, Except.toOption]

/-! ## Identical values -/

private theorem allIdentical_of_cellsIdentical {as bs : Chain Value}
    (h : cellsIdentical as bs = true) : allIdentical as.toList bs.toList = true := by
  induction as generalizing bs with
  | empty => cases bs <;> simp_all [cellsIdentical, allIdentical]
  | last a => cases bs <;> simp_all [cellsIdentical, allIdentical]
  | cell a as ih => cases bs <;> simp_all [cellsIdentical, allIdentical]

private theorem length_eq_of_allIdentical {as bs : List Value} (h : allIdentical as bs = true) :
    as.length = bs.length := by
  induction as generalizing bs with
  | nil => cases bs <;> simp_all [allIdentical]
  | cons a as ih =>
      cases bs with
      | nil => simp [allIdentical] at h
      | cons b bs =>
          simp only [allIdentical, Bool.and_eq_true] at h
          simp [ih h.2]

private theorem allEqual_ne_false_of_allIdentical {as bs : List Value}
    (h : ∀ a ∈ as, ∀ b : Value, a.identical b = true → a.equals b ≠ .ok false)
    (hrows : allIdentical as bs = true) : allEqual as bs ≠ .ok false := by
  induction as generalizing bs with
  | nil => cases bs <;> simp [allEqual]
  | cons a as ih =>
      cases bs with
      | nil => simp [allEqual]
      | cons b bs =>
          simp only [allIdentical, Bool.and_eq_true] at hrows
          obtain ⟨ha, has⟩ := List.forall_mem_cons.mp h
          have hfirst := ha b hrows.1
          rw [allEqual]
          split
          · exact ih has hrows.2
          · exact hfirst

/-- Identical values never differ; of some of them equality cannot be asked. -/
theorem equals_ne_false_of_identical {a b : Value} (h : a.identical b = true) :
    a.equals b ≠ .ok false := by
  induction a using induction_on_parts generalizing b with
  | step a ih =>
      cases a with
      | vector as =>
          cases b with
          | vector bs =>
              have hrows : allIdentical as bs = true := by simpa [identical] using h
              rw [equals_vector, if_pos (length_eq_of_allIdentical hrows)]
              exact allEqual_ne_false_of_allIdentical (fun a ha b => ih a ha) hrows
          | _ => simp [identical] at h
      | pair as =>
          cases b with
          | pair bs =>
              have hcells : cellsIdentical as bs = true := by simpa [identical] using h
              have hrows := allIdentical_of_cellsIdentical hcells
              rw [equals_of_listItems rfl rfl, if_pos (length_eq_of_allIdentical hrows)]
              exact allEqual_ne_false_of_allIdentical (fun a ha b => ih a ha) hrows
          | _ => simp [identical] at h
      | number n =>
          cases b with
          | number m => simp [equals, Number.equals_of_identical (by simpa [identical] using h)]
          | _ => simp [identical] at h
      | _ =>
          clear ih
          cases b <;> simp_all [identical, equals]

/-! ## Transitivity -/

/-- What it takes for two values to be equal. -/
inductive Equal : Value → Value → Prop where
  | number {m n : Number} (h : m.equals n = true) : Equal (.number m) (.number n)
  | boolean (p : Bool) : Equal (.boolean p) (.boolean p)
  | string (s : String) : Equal (.string s) (.string s)
  | vector {as bs : List Value} (h : List.Forall₂ (fun a b => a.equals b = .ok true) as bs) :
      Equal (.vector as) (.vector bs)
  | list {a b : Value} {as bs : List Value} (ha : a.listItems? = some as)
      (hb : b.listItems? = some bs) (h : List.Forall₂ (fun a b => a.equals b = .ok true) as bs) :
      Equal a b

private theorem rows_eq_true_iff {as bs : List Value} :
    (if as.length = bs.length then allEqual as bs else .ok false) = .ok true ↔
      List.Forall₂ (fun a b => a.equals b = .ok true) as bs := by
  by_cases hlength : as.length = bs.length
  · rw [if_pos hlength, allEqual_eq_true_iff hlength]
  · rw [if_neg hlength]
    exact ⟨nofun, fun h => absurd h.length_eq hlength⟩

/-- Equality says yes to exactly these pairs. -/
theorem equals_eq_true_iff {a b : Value} : a.equals b = .ok true ↔ Equal a b := by
  constructor
  · intro h
    cases a with
    | vector as =>
        cases b with
        | vector bs =>
            rw [equals_vector, rows_eq_true_iff] at h
            exact .vector h
        | _ => simp [equals] at h
    | pair as =>
        cases b with
        | pair bs =>
            rw [equals_of_listItems rfl rfl, rows_eq_true_iff] at h
            exact .list rfl rfl h
        | terminal =>
            rw [equals_of_listItems rfl rfl, rows_eq_true_iff] at h
            exact .list rfl rfl h
        | _ => simp [equals] at h
    | terminal =>
        cases b with
        | pair bs =>
            rw [equals_of_listItems rfl rfl, rows_eq_true_iff] at h
            exact .list rfl rfl h
        | terminal => exact .list rfl rfl .nil
        | _ => simp [equals] at h
    | number m =>
        cases b with
        | number n => exact .number (by simpa [equals] using h)
        | _ => simp [equals] at h
    | boolean p =>
        cases b with
        | boolean q =>
            have : p = q := by simpa [equals] using h
            exact this ▸ .boolean p
        | _ => simp [equals] at h
    | string s =>
        cases b with
        | string t =>
            have : s = t := by simpa [equals] using h
            exact this ▸ .string s
        | _ => simp [equals] at h
    | _ => cases b <;> simp [equals] at h
  · rintro (h | p | s | h | ⟨ha, hb, h⟩)
    · simp [equals, h]
    · simp [equals]
    · simp [equals]
    · rw [equals_vector, rows_eq_true_iff]
      exact h
    · rw [equals_of_listItems ha hb, rows_eq_true_iff]
      exact h

private theorem forall₂_equals_trans {as bs cs : List Value}
    (h : ∀ b ∈ bs, ∀ a c : Value, a.equals b = .ok true → b.equals c = .ok true →
      a.equals c = .ok true)
    (first : List.Forall₂ (fun a b => a.equals b = .ok true) as bs)
    (second : List.Forall₂ (fun a b => a.equals b = .ok true) bs cs) :
    List.Forall₂ (fun a b => a.equals b = .ok true) as cs := by
  induction first generalizing cs with
  | nil =>
      cases second
      exact .nil
  | cons hfirst _ ih =>
      cases second with
      | cons hsecond hrest =>
          obtain ⟨hb, hbs⟩ := List.forall_mem_cons.mp h
          exact .cons (hb _ _ hfirst hsecond) (ih hbs hrest)

/-- The items of a list are parts of it. -/
theorem mem_parts_of_listItems {v : Value} {items : List Value} (h : v.listItems? = some items)
    {u : Value} (hu : u ∈ items) : u ∈ v.parts := by
  cases v <;> cases h
  · exact hu
  · cases hu

/-- Two values that equal a third one, which has no floats in it, equal each
other. -/
theorem equals_trans {a b c : Value} (hb : b.Everywhere fun u => u.kind ≠ .float)
    (hab : a.equals b = .ok true) (hbc : b.equals c = .ok true) : a.equals c = .ok true := by
  induction b using induction_on_parts generalizing a c with
  | step b ih =>
      have inner : ∀ u ∈ b.parts, ∀ a c : Value, a.equals u = .ok true → u.equals c = .ok true →
          a.equals c = .ok true := fun u hu _ _ => ih u hu (hb.inside hu)
      rw [equals_eq_true_iff] at hab hbc ⊢
      cases hab with
      | number hfirst =>
          cases hbc with
          | number hsecond => exact .number (Number.equals_trans hb.here hfirst hsecond)
          | list hitems => cases hitems
      | boolean p =>
          cases hbc with
          | boolean => exact .boolean p
          | list hitems => cases hitems
      | string s =>
          cases hbc with
          | string => exact .string s
          | list hitems => cases hitems
      | vector hfirst =>
          cases hbc with
          | vector hsecond => exact .vector (forall₂_equals_trans inner hfirst hsecond)
          | list hitems => cases hitems
      | list ha hitems hfirst =>
          cases hbc with
          | list hitems' hc hsecond =>
              obtain rfl := Option.some.inj (hitems.symm.trans hitems')
              refine .list ha hc (forall₂_equals_trans (fun u hu => ?_) hfirst hsecond)
              exact inner u (mem_parts_of_listItems hitems hu)
          | _ => cases hitems

/-! ## The end of a list -/

mutual

/-- The value with the empty list in the place of every terminal marker that
stands in it, alone or in vectors and lists. -/
def endsAsLists : Value → Value
  | .terminal => .pair .empty
  | .vector items => .vector (allEndsAsLists items)
  | .pair cells => .pair (cellEndsAsLists cells)
  | v => v

/-- The same for the values of a row. -/
def allEndsAsLists : List Value → List Value
  | [] => []
  | v :: rest => v.endsAsLists :: allEndsAsLists rest

/-- The same for the elements of a chain. -/
def cellEndsAsLists : Chain Value → Chain Value
  | .empty => .empty
  | .last v => .last v.endsAsLists
  | .cell v rest => .cell v.endsAsLists (cellEndsAsLists rest)

end

private theorem allEndsAsLists_eq_map (items : List Value) :
    allEndsAsLists items = items.map endsAsLists := by
  induction items with
  | nil => rfl
  | cons v rest ih => simp [allEndsAsLists, ih]

private theorem toList_cellEndsAsLists (cells : Chain Value) :
    (cellEndsAsLists cells).toList = cells.toList.map endsAsLists := by
  induction cells with
  | empty => rfl
  | last v => rfl
  | cell v rest ih => simp [cellEndsAsLists, ih]

private theorem listItems_endsAsLists {v : Value} {items : List Value}
    (h : v.listItems? = some items) : v.endsAsLists.listItems? = some (items.map endsAsLists) := by
  cases v with
  | pair cells =>
      cases h
      exact congrArg some (toList_cellEndsAsLists cells)
  | terminal =>
      cases h
      rfl
  | _ => cases h

private theorem toOption_allEqual_endsAsLists {as : List Value}
    (h : ∀ a ∈ as, ∀ b : Value,
      (a.endsAsLists.equals b.endsAsLists).toOption = (a.equals b).toOption) (bs : List Value) :
    (allEqual (as.map endsAsLists) (bs.map endsAsLists)).toOption =
      (allEqual as bs).toOption := by
  induction as generalizing bs with
  | nil => cases bs <;> simp [allEqual]
  | cons a as ih =>
      cases bs with
      | nil => simp [allEqual]
      | cons b bs =>
          obtain ⟨ha, has⟩ := List.forall_mem_cons.mp h
          rw [List.map_cons, List.map_cons, toOption_allEqual_cons, toOption_allEqual_cons, ha b,
            ih has bs]

private theorem toOption_rows_endsAsLists {as : List Value}
    (h : ∀ a ∈ as, ∀ b : Value,
      (a.endsAsLists.equals b.endsAsLists).toOption = (a.equals b).toOption) (bs : List Value) :
    (if (as.map endsAsLists).length = (bs.map endsAsLists).length then
        allEqual (as.map endsAsLists) (bs.map endsAsLists) else .ok false).toOption =
      (if as.length = bs.length then allEqual as bs else .ok false).toOption := by
  rw [List.length_map, List.length_map]
  by_cases hlength : as.length = bs.length
  · rw [if_pos hlength, if_pos hlength, toOption_allEqual_endsAsLists h bs]
  · rw [if_neg hlength, if_neg hlength]

/-- Equality takes terminal markers for empty lists, at any depth. -/
theorem toOption_equals_endsAsLists (a b : Value) :
    (a.endsAsLists.equals b.endsAsLists).toOption = (a.equals b).toOption := by
  induction a using induction_on_parts generalizing b with
  | step a ih =>
      have lists {as bs : List Value} (ha : a.listItems? = some as) (hb : b.listItems? = some bs) :
          (a.endsAsLists.equals b.endsAsLists).toOption = (a.equals b).toOption := by
        rw [equals_of_listItems ha hb,
          equals_of_listItems (listItems_endsAsLists ha) (listItems_endsAsLists hb)]
        exact toOption_rows_endsAsLists (fun u hu => ih u (mem_parts_of_listItems ha hu)) bs
      cases a with
      | vector as =>
          cases b with
          | vector bs =>
              rw [endsAsLists, endsAsLists, allEndsAsLists_eq_map, allEndsAsLists_eq_map,
                equals_vector, equals_vector]
              exact toOption_rows_endsAsLists ih bs
          | _ => simp [equals, endsAsLists, Except.toOption]
      | pair as =>
          cases b with
          | pair bs => exact lists rfl rfl
          | terminal => exact lists rfl rfl
          | _ => simp [equals, endsAsLists, Except.toOption]
      | terminal =>
          cases b with
          | pair bs => exact lists rfl rfl
          | terminal => exact lists rfl rfl
          | _ => simp [equals, endsAsLists, Except.toOption]
      | _ => cases b <;> simp [equals, endsAsLists, Except.toOption]

/-! ## All of it -/

/-- Equality is a partial equivalence.  It is symmetric in all its outcomes,
it never tells identical values apart, and it is transitive through values
without floats; and values that differ only in whether an empty list is
written as one or as the terminal marker, alone or inside, answer alike. -/
theorem equals_partial_equivalence :
    (∀ a b : Value, (a.equals b).toOption = (b.equals a).toOption) ∧
    (∀ a b : Value, a.identical b = true → a.equals b ≠ .ok false) ∧
    (∀ a b c : Value, (b.Everywhere fun u => u.kind ≠ .float) →
      a.equals b = .ok true → b.equals c = .ok true → a.equals c = .ok true) ∧
    ∀ a a' b b' : Value, a.endsAsLists = a'.endsAsLists → b.endsAsLists = b'.endsAsLists →
      (a.equals b).toOption = (a'.equals b').toOption := by
  refine ⟨equals_comm, fun _ _ => equals_ne_false_of_identical, fun _ _ _ => equals_trans, ?_⟩
  intro a a' b b' ha hb
  rw [← toOption_equals_endsAsLists a b, ha, hb, toOption_equals_endsAsLists a' b']

/-- A list that holds a marker and one that holds an empty list. -/
theorem equals_partial_equivalence_nested_ends :
    let marker : Value := .pair (.last .terminal)
    let list : Value := .pair (.last (.pair .empty))
    list.equals list ≠ .ok false ∧ marker.equals marker = .ok true ∧
      (marker.equals .nil).toOption = (list.equals .nil).toOption := by
  obtain ⟨-, identical, trans, ends⟩ := equals_partial_equivalence
  refine ⟨identical _ _ rfl, trans _ (.pair (.last (.pair .empty))) _ ?_ rfl rfl,
    ends _ _ _ _ rfl rfl⟩
  exact .intro nofun (List.forall_mem_singleton.mpr (.of_parts_eq_nil rfl nofun))

end Value

end LazyLisp
