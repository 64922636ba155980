import LazyLisp.Proofs.Discipline.Basic
import LazyLisp.Proofs.Parts

/-!
# Disciplines that look at every part of a value

Most disciplines demand of data that each of its parts, at any depth, meets
some condition of its own.  For these the laws about data come down to what
the condition says of a single value: nothing of atoms and lists, and of a
lazy cell just what its rest needs to be code.

## Main results

* `Value.everywhere_range` — the one call that the evaluator makes up itself.
* `dataLaws_of_everywhere` — the laws about data, from the condition.
-/

namespace LazyLisp

/-- An atomic value holds no other. -/
theorem Value.parts_of_isAtomic {v : Value} (h : v.isAtomic = true) : v.parts = [] := by
  cases v <;> first | rfl | cases h

/-- The call that defers the rest of a range meets a demand everywhere that
the call, its callee and all integers meet. -/
theorem Value.everywhere_range {P : Value → Prop} {low high : Int64}
    (hcall : P (.call (.symbol Operator.range.name) [.integer low, .integer high] .nowhere))
    (hcallee : P (.symbol Operator.range.name)) (hinteger : ∀ n : Int64, P (.integer n)) :
    Value.Everywhere P
      (.call (.symbol Operator.range.name) [.integer low, .integer high] .nowhere) := by
  refine .intro hcall fun u hu => ?_
  simp only [Value.parts, List.mem_cons, List.not_mem_nil, or_false] at hu
  rcases hu with rfl | rfl | rfl
  · exact .of_parts_eq_nil rfl hcallee
  · exact .of_parts_eq_nil rfl (hinteger low)
  · exact .of_parts_eq_nil rfl (hinteger high)

namespace Discipline

variable {D : Discipline} {P : D.World → Value → Prop}

/-- The laws for data follow from a few facts about single values, where data is a
demand on all parts. -/
theorem dataLaws_of_everywhere (hdata : ∀ w v, D.Data w v = v.Everywhere (P w))
    (hatomic : ∀ w v, v.isAtomic = true → P w v) (hpair : ∀ w cells, P w (.pair cells))
    (hlast : ∀ w head, P w (.lastCell head))
    (hforce : ∀ w head rest scope, P w (.lazyCell head rest scope) → D.Data w rest →
      D.Code w scope rest)
    (hpending : ∀ w head rest scope, D.Code w scope rest →
      P w (.lazyCell head rest scope) ∧ D.Data w rest)
    (hready : ∀ w head rest scope, rest.kind = .lazySequence → D.Within w scope →
      P w (.lazyCell head rest scope.root)) : D.DataLaws where
  atomic := by
    intro w v hv
    rw [hdata]
    exact .of_parts_eq_nil (Value.parts_of_isAtomic hv) (hatomic w v hv)
  items := by
    intro w cells v h hv
    rw [hdata] at h ⊢
    exact h.inside hv
  tail := by
    intro w head cells h
    rw [hdata] at h ⊢
    exact .intro (hpair w _) fun u hu => h.inside (List.mem_cons_of_mem _ hu)
  cell := by
    intro w head cells hhead hcells _
    rw [hdata] at hhead hcells ⊢
    exact .intro (hpair w _) (List.forall_mem_cons.mpr ⟨hhead, fun u hu => hcells.inside hu⟩)
  ofList := by
    intro w items h
    simp only [hdata] at h ⊢
    refine .intro (hpair w _) fun u hu => h u ?_
    rwa [Value.parts, Chain.toList_ofList] at hu
  lastCell := by
    intro w head
    rw [hdata, hdata]
    constructor
    · exact fun h => h.inside (List.mem_singleton_self _)
    · exact fun h => .intro (hlast w _) (List.forall_mem_singleton.mpr h)
  lazyCell := by
    intro w head rest scope h
    rw [hdata] at h ⊢
    refine ⟨h.inside (by simp [Value.parts]), hforce w head rest scope h.here ?_⟩
    rw [hdata]
    exact h.inside (by simp [Value.parts])
  pending := by
    intro w head rest scope hhead _ hrest
    obtain ⟨hhere, hrest⟩ := hpending w head rest scope hrest
    rw [hdata] at hhead hrest ⊢
    exact .intro hhere (List.forall_mem_cons.mpr ⟨hhead, List.forall_mem_singleton.mpr hrest⟩)
  ready := by
    intro w head rest scope hhead hrest hkind hscope
    rw [hdata] at hhead hrest ⊢
    exact .intro (hready w head rest scope hkind hscope)
      (List.forall_mem_cons.mpr ⟨hhead, List.forall_mem_singleton.mpr hrest⟩)

end Discipline

end LazyLisp
