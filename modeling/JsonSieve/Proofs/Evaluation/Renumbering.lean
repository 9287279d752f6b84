import JsonSieve.Proofs.Evaluation.Agreement
import JsonSieve.Proofs.Expression.Scope

/-!
# Slots renumbered

The names of slots carry no meaning.  A filter all of whose fields start at filled slots can be
given new slots, each quantifier the number of the quantifiers in whose predicates it stands,
counted from one, and no verdict or error changes.  Quantifiers beside each other share a number,
and one that filled the slot of an outer one again gets a number of its own.  Since each number
takes a level, a filter with few levels needs few slots, and the root slot stays the document's.
-/

namespace JsonSieve

namespace Expression

/-- How many slots of a scope have been filled before a slot was filled last. -/
def level (slot : Nat) : (scope : List Nat) → Nat
  | [] => 0
  | filled :: scope => if slot = filled then scope.length else level slot scope

/-- Slots are numbered in the order in which they are filled. -/
def Relabelling.byLevel : Relabelling where
  field scope slot path := (level slot scope, path)
  slot scope _ := scope.length

theorem level_lt (slot : Nat) {scope : List Nat} (nonempty : scope ≠ []) :
    level slot scope < scope.length := by
  induction scope with
  | nil => contradiction
  | cons filled scope ih =>
      rw [level, List.length_cons]
      split
      · omega
      · cases scope with
        | nil => exact Nat.one_pos
        | cons other scope => exact (ih (List.cons_ne_nil _ _)).trans (Nat.lt_succ_self _)

/-- Every slot that is filled takes a level, and the place at which it is read another one. -/
theorem highestSlot_byLevel_le {scope : List Nat} (nonempty : scope ≠ [])
    {expression : Expression} {bound : Nat}
    (within : scope.length + expression.depth ≤ bound + 2) :
    (expression.relabel .byLevel scope).highestSlot ≤ bound := by
  have positive : 0 < scope.length := List.length_pos_iff.mpr nonempty
  induction expression generalizing scope with
  | constant value => exact Nat.zero_le _
  | connective kind children ih =>
      rw [relabel, relabelAll_eq_map, highestSlot, highestSlotAmong_le_iff, List.forall_mem_map]
      intro child member
      have fewer : child.depth < (connective kind children).depth := depth_part_lt member
      exact ih child member nonempty (by omega) positive
  | negation inner ih =>
      rw [depth] at within
      exact ih nonempty (by omega) positive
  | comparison kind lhs rhs lhsIH rhsIH =>
      rw [depth] at within
      exact Nat.max_le.mpr
        ⟨lhsIH nonempty (by omega) positive, rhsIH nonempty (by omega) positive⟩
  | field slot path =>
      have small := level_lt slot nonempty
      rw [depth] at within
      rw [relabel, highestSlot]
      change level slot scope ≤ bound
      omega
  | literal value => exact Nat.zero_le _
  | quantifier kind slot source predicate sourceIH predicateIH =>
      have levels := source.depth_pos
      rw [depth] at within
      refine Nat.max_le.mpr ⟨?_, Nat.max_le.mpr ⟨sourceIH nonempty (by omega) positive, ?_⟩⟩
      · change scope.length ≤ bound
        omega
      · refine predicateIH (List.cons_ne_nil _ _) ?_ (Nat.succ_pos _)
        rw [List.length_cons]
        omega

theorem keepsRoot_byLevel {scope : List Nat} (nonempty : scope ≠ []) (expression : Expression) :
    (expression.relabel .byLevel scope).KeepsRoot := by
  induction expression generalizing scope with
  | constant value => exact keepsRoot_iff.mpr ⟨by simp [relabel], by simp [relabel, parts]⟩
  | connective kind children ih =>
      refine keepsRoot_iff.mpr ⟨by simp [relabel], ?_⟩
      rw [relabel, relabelAll_eq_map, parts, List.forall_mem_map]
      exact fun child member => ih child member nonempty
  | negation inner ih =>
      exact keepsRoot_iff.mpr ⟨by simp [relabel], by simpa [relabel, parts] using ih nonempty⟩
  | comparison kind lhs rhs lhsIH rhsIH =>
      exact keepsRoot_iff.mpr
        ⟨by simp [relabel], by simp [relabel, parts, lhsIH nonempty, rhsIH nonempty]⟩
  | field slot path => exact keepsRoot_iff.mpr ⟨by simp [relabel], by simp [relabel, parts]⟩
  | literal value => exact keepsRoot_iff.mpr ⟨by simp [relabel], by simp [relabel, parts]⟩
  | quantifier kind slot source predicate sourceIH predicateIH =>
      have inPredicate := predicateIH (List.cons_ne_nil slot scope)
      refine keepsRoot_iff.mpr
        ⟨?_, by simp [relabel, parts, sourceIH nonempty, inPredicate]⟩
      intro other otherSource otherPredicate same
      rw [relabel, Expression.quantifier.injEq] at same
      exact nonempty (List.length_eq_zero_iff.mp same.2.1)

end Expression

/-- A condition with its slots renumbered is alike, if each slot of the scope holds something and
the slot with its number holds the same. -/
theorem Alike.byLevel {view : EvaluationError → EvaluationError} {scope : List Nat}
    {expression : Expression} (wellScoped : expression.WellScoped scope)
    {here there : Environment}
    (held : ∀ slot ∈ scope, ∃ value,
      here slot = some value ∧ there (Expression.level slot scope) = some value) :
    Alike view here expression there (expression.relabel .byLevel scope) := by
  induction wellScoped generalizing here there with
  | constant value => exact .constant value
  | connective kind each ih =>
      rw [Expression.relabel, Expression.relabelAll_eq_map]
      exact .connective kind fun child member => ih child member held
  | negation inside ih => exact .negation (ih held)
  | comparison kind left right leftIH rightIH =>
      exact .comparison kind (leftIH held) (rightIH held)
  | @field scope slot path filled =>
      obtain ⟨value, own, numbered⟩ := held slot filled
      refine .field ?_
      change _ = (there.fieldValue (Expression.level slot scope) path).mapError view
      simp only [Environment.fieldValue, own, numbered]
  | literal value => exact .literal value
  | @quantifier scope kind slot source predicate outside inside outsideIH insideIH =>
      refine .quantifier kind (outsideIH held) fun item => insideIH ?_
      intro other filled
      rw [Expression.level]
      split
      · next isOwn =>
          rw [isOwn]
          exact ⟨item, here.put_self slot item, there.put_self scope.length item⟩
      · next different =>
          -- The numbers in use are below the one just given.
          have before : other ∈ scope := (List.mem_cons.mp filled).resolve_left different
          have smaller := Expression.level_lt other (List.ne_nil_of_mem before)
          obtain ⟨value, own, numbered⟩ := held other before
          exact ⟨value, (Environment.put_of_ne different here item).trans own,
            (Environment.put_of_ne smaller.ne there item).trans numbered⟩

namespace Evaluation

/-- A filter whose fields start at filled slots can be given slots up to 63 other than the root
slot.  It yields the same on every document within all limits. -/
theorem slots_can_be_renumbered {filter : Expression} (wellScoped : filter.WellScoped [rootSlot])
    (within : filter.depth ≤ 64) :
    ∃ renumbered : Expression, renumbered.SameButSlots filter ∧ renumbered.highestSlot ≤ 63 ∧
      renumbered.KeepsRoot ∧ ∀ limits document,
        verdictOn limits document renumbered = verdictOn limits document filter := by
  have nonempty : [rootSlot] ≠ [] := List.cons_ne_nil _ _
  refine ⟨filter.relabel .byLevel [rootSlot],
    Expression.sameButSlots_relabel (fun _ _ _ => rfl) _ _,
    Expression.highestSlot_byLevel_le nonempty (by rw [List.length_singleton]; omega),
    Expression.keepsRoot_byLevel nonempty filter, fun limits document => ?_⟩
  have alike : Alike id (.ofDocument document) filter (.ofDocument document)
      (filter.relabel .byLevel [rootSlot]) := by
    refine .byLevel wellScoped fun slot filled => ?_
    obtain rfl := List.mem_singleton.mp filled
    exact ⟨document, rfl, rfl⟩
  have verdicts := alike.mapError_verdictOn limits
  rw [Fallible.mapError_id, Fallible.mapError_id] at verdicts
  exact verdicts.symm

/-- Every row has its own number among its tags.  The outer quantifier fills the document's slot and
the inner one the last slot of all. -/
theorem rows_renumbered :
    let tags := 18446744073709551615
    let filter := Expression.quantifier .every 0 (.field 0 "rows")
      (.quantifier .any tags (.field 0 "tags")
        (.comparison .equal (.field tags "") (.field 0 "id")))
    filter.WellScoped [rootSlot] ∧ filter.depth ≤ 64 ∧
      filter.relabel .byLevel [rootSlot] = .quantifier .every 1 (.field 0 "rows")
        (.quantifier .any 2 (.field 1 "tags")
          (.comparison .equal (.field 2 "") (.field 1 "id"))) ∧
      ∃ renumbered : Expression, renumbered.SameButSlots filter ∧ renumbered.highestSlot ≤ 63 ∧
        renumbered.KeepsRoot ∧ ∀ limits document,
          verdictOn limits document renumbered = verdictOn limits document filter := by
  intro tags filter
  have wellScoped : filter.WellScoped [rootSlot] :=
    .quantifier _ _ (.field _ (by decide)) (.quantifier _ _ (.field _ (by decide))
      (.comparison _ (.field _ (by decide)) (.field _ (by decide))))
  have within : filter.depth ≤ 64 := by decide
  exact ⟨wellScoped, within, rfl, slots_can_be_renumbered wellScoped within⟩

end Evaluation

end JsonSieve
