import JsonSieve.Documents
import JsonSieve.Proofs.Evaluation.Limits
import JsonSieve.Proofs.Sieve.Outcome
import JsonSieve.Proofs.Text.Lines

/-!
# Selected documents

Of a stream of documents, a sieve and the sieve turned around share out those that are JSON.  What
is printed of them, each with a line feed after it, is a stream of just these documents.
-/

namespace JsonSieve

open Evaluation

namespace Sieve

theorem outcome_eq_malformedDocument_iff (sieve : Sieve) (document : Bytes) :
    sieve.outcome document = .error .malformedDocument ↔ Json.ofBytes? document = none := by
  rcases sieve.evaluation_cases document with
    ⟨unread, -, failed⟩ | ⟨value, read, -, judged⟩ | ⟨value, error, later, read, split, failed⟩
  · simp [unread, failed]
  · simp [read, judged]
  · -- The error is the verdict of a filter, and no filter has that one.
    have isVerdict : .error error ∈ sieve.ownVerdicts value := by simp [split]
    obtain ⟨filter, -, verdict⟩ := List.mem_map.mp isVerdict
    have other : error ≠ .malformedDocument := by
      rintro rfl
      exact verdictOn_ne_malformedDocument sieve.settings.limits value filter verdict
    simp [read, failed, other]

theorem evaluate_eq_malformedDocument_iff (sieve : Sieve) (document : Bytes) :
    sieve.evaluate document = .error .malformedDocument ↔ Json.ofBytes? document = none := by
  rw [← outcome_eq_malformedDocument_iff, evaluate_eq]
  cases sieve.outcome document with
  | ok passes => exact ⟨nofun, nofun⟩
  | error error => simp [Except.map]

end Sieve

namespace Documents

def isJson (document : Bytes) : Bool :=
  (Json.ofBytes? document).isSome

theorem isSelected_eq (sieve : Sieve) (invert : Bool) (document : Bytes) :
    isSelected sieve invert document =
      (isJson document && (sieve.accepts document != invert)) := by
  have malformed := sieve.evaluate_eq_malformedDocument_iff document
  rw [← Option.isNone_iff_eq_none, ← Option.not_isSome, ← isJson] at malformed
  rw [isSelected]
  split
  · next report evaluated =>
      have read : isJson document = true := by
        by_contra unread
        cases evaluated.symm.trans (malformed.mpr (by simpa using unread))
      rw [read, Sieve.accepts, evaluated, Bool.true_and]
  · next failed =>
      have unread : isJson document = false := by simpa using malformed.mp failed
      rw [unread, Bool.false_and]
  · next error other failed =>
      have read : isJson document = true := by
        by_contra unread
        exact other (Except.error.inj (failed.symm.trans (malformed.mpr (by simpa using unread))))
      rw [read, Sieve.accepts, failed, Bool.true_and, Bool.false_bne]

theorem select_eq (sieve : Sieve) (invert : Bool) (input : Bytes) :
    select sieve invert input = (ofInput input).filter
      (fun document => isJson document && (sieve.accepts document != invert)) := by
  rw [select]
  exact List.filter_congr fun document _ => isSelected_eq sieve invert document

theorem mem_select_iff {sieve : Sieve} {invert : Bool} {input document : Bytes} :
    document ∈ select sieve invert input ↔
      document ∈ ofInput input ∧ isJson document = true ∧ sieve.accepts document = !invert := by
  rw [select_eq, List.mem_filter, Bool.and_eq_true, bne_iff_ne, Bool.eq_not]

/-- A sieve and the sieve turned around share out the documents that are JSON. -/
theorem select_append_select_perm (sieve : Sieve) (input : Bytes) :
    (select sieve false input ++ select sieve true input).Perm
      ((ofInput input).filter isJson) := by
  have amongJson : ∀ invert, select sieve invert input = ((ofInput input).filter isJson).filter
      (fun document => sieve.accepts document != invert) := by
    intro invert
    rw [select_eq, List.filter_filter]
    exact List.filter_congr fun document _ => Bool.and_comm ..
  simp only [amongJson, Bool.bne_false, Bool.bne_true]
  exact List.filter_append_perm sieve.accepts ((ofInput input).filter isJson)

/-- A document that stands alone on a line: it is not empty, holds no line feed and has no blanks
around it. -/
abbrev IsDocument (document : Bytes) : Prop :=
  Lines.IsTrimmedPiece 0x0a Lines.isBlankOctet document

theorem isDocument_of_mem_ofInput {input document : Bytes} (member : document ∈ ofInput input) :
    IsDocument document :=
  Lines.isTrimmedPiece_of_mem member

theorem isDocument_of_mem_select {sieve : Sieve} {invert : Bool} {input document : Bytes}
    (member : document ∈ select sieve invert input) : IsDocument document :=
  isDocument_of_mem_ofInput (List.mem_of_mem_filter member)

theorem ofInput_append (first second : Bytes) :
    ofInput (first ++ 0x0a :: second) = ofInput first ++ ofInput second :=
  Lines.trimmedPieces_append first second

theorem select_append (sieve : Sieve) (invert : Bool) (first second : Bytes) :
    select sieve invert (first ++ 0x0a :: second) =
      select sieve invert first ++ select sieve invert second := by
  rw [select, ofInput_append, List.filter_append]
  rfl

theorem ofInput_toOutput {documents : List Bytes}
    (each : ∀ document ∈ documents, IsDocument document) :
    ofInput (toOutput documents) = documents :=
  Lines.trimmedPieces_flatMap each

theorem select_toOutput_select (sieve : Sieve) (invert other : Bool) (input : Bytes) :
    select sieve other (toOutput (select sieve invert input)) =
      (select sieve invert input).filter (isSelected sieve other) := by
  rw [select, ofInput_toOutput fun document member => isDocument_of_mem_select member]

theorem select_again (sieve : Sieve) (invert : Bool) (input : Bytes) :
    select sieve invert (toOutput (select sieve invert input)) = select sieve invert input := by
  rw [select_toOutput_select]
  exact List.filter_eq_self.mpr fun document member => List.of_mem_filter member

theorem select_turned_around (sieve : Sieve) (invert : Bool) (input : Bytes) :
    select sieve (!invert) (toOutput (select sieve invert input)) = [] := by
  rw [select_toOutput_select, List.filter_eq_nil_iff]
  intro document member selected
  -- The verdict for which it was printed is the wrong one now.
  have passes := (mem_select_iff.mp member).2.2
  rw [isSelected_eq, passes] at selected
  simp at selected

theorem splitAt_toOutput {documents : List Bytes}
    (each : ∀ document ∈ documents, IsDocument document) :
    Lines.splitAt 0x0a (toOutput documents) = documents ++ [[]] :=
  Lines.splitAt_flatMap fun document member => (each document member).unbroken

theorem count_toOutput {documents : List Bytes}
    (each : ∀ document ∈ documents, IsDocument document) :
    (toOutput documents).count 0x0a = documents.length := by
  induction documents with
  | nil => rfl
  | cons document documents ih =>
      rw [List.forall_mem_cons] at each
      have unbroken : document.count 0x0a = 0 := List.count_eq_zero.mpr each.1.unbroken
      have own := ih each.2
      rw [toOutput] at own ⊢
      rw [List.flatMap_cons, List.count_append, List.count_append, unbroken, own,
        List.length_cons, List.count_singleton_self]
      omega

end Documents

end JsonSieve
