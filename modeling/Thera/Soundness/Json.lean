import Thera.Proofs.Sdk.JsonStringify

/-! # JSON is read and written as the grammar has it

The parser accepts the texts of the grammar whose surrogate escapes pair up, with the meaning the grammar gives
them, and it reports an error on every other text. What the serializer writes, it reads back.
-/

namespace Thera.Soundness

open Thera.Sdk Scanning

variable {D : Type} (round : List ℤ → D)

theorem parse_eq (text : String) : parse round text = Prod.fst <$> parseChars round (codePoints text.toList) 0 := rfl

theorem parse_eq_ok (text : String) (v : Json D) :
    parse round text = .ok v ↔ ∃ p, parseChars round (codePoints text.toList) 0 = .ok (v, p) := by
  rw [parse_eq]
  cases parseChars round (codePoints text.toList) 0 with
  | ok result =>
    obtain ⟨w, p⟩ := result
    exact ⟨fun same => ⟨p, by cases same; rfl⟩, fun ⟨_, same⟩ => by cases same; rfl⟩
  | error stop => exact ⟨fun same => (by cases same), fun ⟨_, same⟩ => (by cases same)⟩

theorem parse_eq_error (text : String) (stop : Stop) :
    parse round text = .error stop ↔ parseChars round (codePoints text.toList) 0 = .error stop := by
  rw [parse_eq]
  cases parseChars round (codePoints text.toList) 0 with
  | ok result => exact ⟨fun same => (by cases same), fun same => by cases same⟩
  | error e => exact ⟨fun same => by cases same; rfl, fun same => by cases same; rfl⟩

theorem parse_of_document (doc : Grammar.Document) (pairs : doc.value.Paired) :
    parse round (String.ofList doc.text) = .ok (doc.value.value round) := by
  obtain ⟨p, run, -⟩ := parseChars_run round pairs
  refine (parse_eq_ok round _ _).mpr ⟨p, ?_⟩
  rw [String.toList_ofList, run]

/-- A text parses exactly if it is derived by the grammar with its surrogate escapes in pairs, and then to what the
derivation means. Any other text is reported; no index is out of range. -/
theorem parse_iff_derived (text : String) :
    (∀ v : Json D, parse round text = .ok v ↔
      ∃ doc : Grammar.Document, doc.text = text.toList ∧ doc.value.Paired ∧ doc.value.value round = v) ∧
    ∀ stop, parse round text = .error stop → ∃ message, stop = .malformed message := by
  have ends := parseChars_ends round text.toList
  refine ⟨fun v => ⟨fun parsed => ?_, ?_⟩, fun stop failed => ?_⟩
  · obtain ⟨p, run⟩ := (parse_eq_ok round text v).mp parsed
    obtain ⟨doc, same, pairs, rfl⟩ := ends.value run
    exact ⟨doc, same, pairs, rfl⟩
  · rintro ⟨doc, same, pairs, rfl⟩
    rw [← String.ofList_toList (s := text), ← same]
    exact parse_of_document round doc pairs
  · exact ends.error ((parse_eq_error round text stop).mp failed)

/-- A value without doubles survives being written and read, its keys in order. -/
theorem parse_stringify (displayDouble : D → String) (pretty : Bool) (v : Json D) (noDouble : v.NoDouble)
    (distinct : v.DistinctKeys) : parse round (stringify displayDouble pretty v) = .ok v := by
  have isDerived : Derived round displayDouble pretty v := derived v
  obtain ⟨d, text, pairs, value⟩ := isDerived 0 noDouble distinct
  have written : stringify displayDouble pretty v = String.ofList (Grammar.Document.mk noWs d noWs).text := by
    simp [stringify, Grammar.Document.text, text, noWs]
  rw [written, parse_of_document round ⟨noWs, d, noWs⟩ pairs, value]

/-- An object with an array and a string to escape. -/
def nestedJson : Json Unit := .object [("a", .array [.int ⟨-1, by decide⟩, .null]), ("", .str "\n")]

theorem parse_stringify_nested :
    parse (fun _ => ()) (stringify (fun _ => "") true nestedJson) = .ok nestedJson :=
  parse_stringify _ _ true _ (by simp [nestedJson, Json.NoDouble, noDoubleFields, noDoubles])
    (by simp [nestedJson, Json.DistinctKeys, distinctKeyFields, distinctKeys])

end Thera.Soundness
