import JsonSieve.Proofs.Evaluation.Agreement
import JsonSieve.Proofs.Path.Following

/-!
# The fields that a filter names

A filter depends on a document only through the fields of the root slot that occur in it.  The
fields of other slots need no mention: what they start at has come out of the document through the
source of a quantifier, and where nothing has been put into a slot they fail on every document
alike.
-/

namespace JsonSieve

namespace Evaluation

theorem verdictOn_congr_fields (limits : Limits) {filter : Expression}
    {first second : Json.Value}
    (same : ∀ path, .field rootSlot path ∈ filter.nodes →
      Path.resolve first path = Path.resolve second path) :
    verdictOn limits first filter = verdictOn limits second filter := by
  have alike : Alike id (.ofDocument first) filter (.ofDocument second) filter := by
    refine .of_fieldsAlike fun slot path occurs => ?_
    by_cases isRoot : slot = rootSlot
    · rw [isRoot] at occurs
      simp only [Environment.fieldValue, Environment.ofDocument, if_pos isRoot, same path occurs]
    · simp only [Environment.fieldValue, Environment.ofDocument, if_neg isRoot]
  have verdicts := alike.mapError_verdictOn limits
  rwa [Fallible.mapError_id, Fallible.mapError_id] at verdicts

/-- The fields of the root slot that occur in a filter determine what it yields.  So in an object
only those members count whose keys begin the path of such a field. -/
theorem verdict_determined_by_named_fields (limits : Limits) (filter : Expression) :
    (∀ first second,
      (∀ path, .field rootSlot path ∈ filter.nodes →
        Path.resolve first path = Path.resolve second path) →
      verdictOn limits first filter = verdictOn limits second filter) ∧
    ∀ members others,
      (∀ path, .field rootSlot path ∈ filter.nodes → path ≠ "" ∧
        ∀ key rest, Path.readStep? path.toList = some (.key key, rest) →
          Json.Value.member? key members = Json.Value.member? key others) →
      verdictOn limits (.object members) filter = verdictOn limits (.object others) filter := by
  refine ⟨fun first second => verdictOn_congr_fields limits, fun members others same => ?_⟩
  refine verdictOn_congr_fields limits fun path occurs => ?_
  obtain ⟨nonempty, sameMembers⟩ := same path occurs
  exact Path.resolve_object_congr nonempty sameMembers

/-- The tags of a document decide; its other members differ and stand in another order. -/
theorem verdict_determined_by_tags :
    let filter := Expression.quantifier .any 1 (.field 0 "tags")
      (.comparison .equal (.field 1 "") (.literal (.string "a")))
    let members := [("id", .number (.integer 1)), ("tags", Json.Value.array [.string "a"])]
    let others := [("tags", Json.Value.array [.string "a"]), ("id", .null), ("name", .null)]
    (∀ path, .field rootSlot path ∈ filter.nodes → path = "tags") ∧
    Path.resolve (.object members) "tags" = Path.resolve (.object others) "tags" ∧
    (∀ key rest, Path.readStep? "tags".toList = some (.key key, rest) →
      Json.Value.member? key members = Json.Value.member? key others) ∧
    ∀ limits : Limits,
      verdictOn limits (.object members) filter = verdictOn limits (.object others) filter := by
  intro filter members others
  have onlyTags : ∀ path, .field rootSlot path ∈ filter.nodes → path = "tags" := by
    simp [filter, Expression.nodes, rootSlot]
  have sameMember : ∀ key rest, Path.readStep? "tags".toList = some (.key key, rest) →
      Json.Value.member? key members = Json.Value.member? key others := by
    intro key rest read
    have first : Path.readStep? "tags".toList = some (.key "tags", []) := by cbv
    cases first.symm.trans read
    rfl
  refine ⟨onlyTags, Path.resolve_object_congr (by decide) sameMember, sameMember,
    fun limits => ?_⟩
  refine (verdict_determined_by_named_fields limits filter).2 members others fun path occurs => ?_
  obtain rfl := onlyTags path occurs
  exact ⟨by decide, sameMember⟩

end Evaluation

end JsonSieve
