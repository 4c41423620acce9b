import LabelGraph.Diagnostic.Json

/-!
Diagnostics as JSON, written and read. What is written is read back as it was. Reading accepts
more than is written: details that are missing as a whole, members that are missing or null,
and members that it does not know. All of these are brought to the one form that is written.
-/

namespace LabelGraph

namespace Json

def member? (name : String) : Json → Option Json
  | .object members => members.lookup name
  | _ => none

theorem word?_nat {n : Nat} (h : n < UInt64.size) : (nat n).word? = some n := by
  have hsize : n < 18446744073709551616 := h
  have hrange : 0 ≤ (n : Int) ∧ (n : Int) < 18446744073709551616 := by omega
  rw [nat, word?, if_pos hrange, Int.toNat_natCast]

theorem lt_of_word? {json : Json} {n : Nat} (h : json.word? = some n) : n < UInt64.size := by
  cases json with
  | int i =>
    rw [word?] at h
    split at h
    · next hrange =>
      cases h
      exact (Int.toNat_lt hrange.1).2 hrange.2
    · cases h
  | _ => cases h

/-- What is set is read back, and what is not set is missing. -/
@[simp] theorem optional?_map (value : Option String) :
    optional? string? (value.map .string) = some value := by
  cases value <;> rfl

end Json

/-- The numbers of the position are words of 64 bits. -/
structure Position.Fits (p : Position) : Prop where
  line : p.line < UInt64.size
  column : p.column < UInt64.size
  offset : p.offset < UInt64.size

structure Span.Fits (s : Span) : Prop where
  start : s.start.Fits
  stop : s.stop.Fits

namespace Position

@[simp] theorem ofJson?_toJson {p : Position} (h : p.Fits) : ofJson? p.toJson = some p := by
  change (do return { line := ← (Json.nat p.line).word?, column := ← (Json.nat p.column).word?
                      offset := ← (Json.nat p.offset).word? } : Option Position) = some p
  rw [Json.word?_nat h.line, Json.word?_nat h.column, Json.word?_nat h.offset]
  rfl

theorem fits_of_ofJson? {json : Json} {p : Position} (h : ofJson? json = some p) : p.Fits := by
  unfold ofJson? at h
  split at h
  · obtain ⟨line, hline, h⟩ := Option.bind_eq_some_iff.1 h
    obtain ⟨column, hcolumn, h⟩ := Option.bind_eq_some_iff.1 h
    obtain ⟨offset, hoffset, h⟩ := Option.bind_eq_some_iff.1 h
    cases h
    exact ⟨Json.lt_of_word? hline, Json.lt_of_word? hcolumn, Json.lt_of_word? hoffset⟩
  · cases h

end Position

namespace Span

@[simp] theorem ofJson?_toJson {s : Span} (h : s.Fits) : ofJson? s.toJson = some s := by
  change (do return { start := ← Position.ofJson? s.start.toJson
                      stop := ← Position.ofJson? s.stop.toJson } : Option Span) = some s
  rw [Position.ofJson?_toJson h.start, Position.ofJson?_toJson h.stop]
  rfl

theorem fits_of_ofJson? {json : Json} {s : Span} (h : ofJson? json = some s) : s.Fits := by
  unfold ofJson? at h
  split at h
  · obtain ⟨start, hstart, h⟩ := Option.bind_eq_some_iff.1 h
    obtain ⟨stop, hstop, h⟩ := Option.bind_eq_some_iff.1 h
    cases h
    exact ⟨Position.fits_of_ofJson? hstart, Position.fits_of_ofJson? hstop⟩
  · cases h

end Span

@[simp] theorem Severity.ofJson?_toJson (s : Severity) : ofJson? s.toJson = some s := by
  cases s <;> decide

namespace Details

/-- Each of the details is written if it is set, and only then. -/
theorem members_toJson (d : Details) :
    d.toJson.member? "found" = d.found.map .string ∧
      d.toJson.member? "expected" = d.expected.map .string ∧
      d.toJson.member? "info" = d.info.map .string := by
  obtain ⟨found, expected, info⟩ := d
  cases found <;> cases expected <;> cases info <;> exact ⟨rfl, rfl, rfl⟩

@[simp] theorem ofJson?_toJson (d : Details) : ofJson? d.toJson = some d := by
  obtain ⟨hfound, hexpected, hinfo⟩ := d.members_toJson
  change (do return { found := ← Json.optional? Json.string? (d.toJson.member? "found")
                      expected := ← Json.optional? Json.string? (d.toJson.member? "expected")
                      info := ← Json.optional? Json.string? (d.toJson.member? "info") } :
    Option Details) = some d
  rw [hfound, hexpected, hinfo]
  simp only [Json.optional?_map]
  rfl

end Details

namespace Diagnostic

variable {d : Diagnostic}

theorem ofJson?_of_fits (h : d.span.Fits) : ofJson? d.toJson = some d := by
  change (do return { severity := ← Severity.ofJson? d.severity.toJson
                      code := ← (Json.string d.code).string?
                      message := ← (Json.string d.message).string?
                      span := ← Span.ofJson? d.span.toJson
                      details := ← Details.ofJson? d.details.toJson } : Option Diagnostic) = some d
  rw [Severity.ofJson?_toJson, Span.ofJson?_toJson h, Details.ofJson?_toJson]
  rfl

/-- A diagnostic that was read has a span of words. -/
theorem fits_of_ofJson? {json : Json} (h : ofJson? json = some d) : d.span.Fits := by
  unfold ofJson? at h
  split at h
  · obtain ⟨severity, -, h⟩ := Option.bind_eq_some_iff.1 h
    obtain ⟨code, -, h⟩ := Option.bind_eq_some_iff.1 h
    obtain ⟨message, -, h⟩ := Option.bind_eq_some_iff.1 h
    obtain ⟨span, hspan, h⟩ := Option.bind_eq_some_iff.1 h
    split at h
    · cases h
      exact Span.fits_of_ofJson? hspan
    · obtain ⟨details, -, h⟩ := Option.bind_eq_some_iff.1 h
      cases h
      exact Span.fits_of_ofJson? hspan
  · cases h

/-- A diagnostic that is written as JSON is read back as it was. So is one that was read from
any JSON value, whatever else that value held. Each of the details is written if it is set, and
only then. -/
theorem survives_json :
    (∀ d : Diagnostic, d.span.Fits → ofJson? d.toJson = some d) ∧
      (∀ json d, ofJson? json = some d → ofJson? d.toJson = some d) ∧
      ∀ d : Diagnostic, ∃ details, d.toJson.member? "details" = some details ∧
        details.member? "found" = d.details.found.map .string ∧
        details.member? "expected" = d.details.expected.map .string ∧
        details.member? "info" = d.details.info.map .string := by
  refine ⟨fun d => ofJson?_of_fits, fun json d h => ?_, fun d => ?_⟩
  · exact ofJson?_of_fits (fits_of_ofJson? h)
  · exact ⟨d.details.toJson, rfl, d.details.members_toJson⟩

/-- A value with one of the details missing, one null, and members that are not known. -/
def looseJson : Json :=
  .object
    [("origin", .array [.null, .bool true]), ("severity", .object [("warning", .null)]),
      ("code", .string Code.unresolved), ("message", .string "undefined label `b`"),
      ("span", .array [Position.start.toJson, Position.start.toJson]),
      ("details", .object [("expected", .null), ("hint", .nat 1), ("info", .string "a")])]

/-- A span of the largest numbers, and a value with members that are missing, null or not known. -/
theorem survives_json_loose :
    let far : Position := ⟨UInt64.size - 1, UInt64.size - 1, UInt64.size - 1⟩
    let wide : Diagnostic :=
      { severity := .error, code := Code.unresolved, message := "\x00\"é"
        span := ⟨.start, far⟩, details := { found := some "" } }
    (wide.span.Fits ∧ ofJson? wide.toJson = some wide) ∧
      ∃ d, ofJson? looseJson = some d ∧ d.details = { info := some "a" } ∧
        ofJson? d.toJson = some d := by
  intro far wide
  obtain ⟨hwritten, hread, -⟩ := survives_json
  have hfits : wide.span.Fits :=
    ⟨⟨by decide, by decide, by decide⟩, by decide, by decide, by decide⟩
  have hloose : ofJson? looseJson = some
      { severity := .warning, code := Code.unresolved, message := "undefined label `b`"
        span := .zero, details := { info := some "a" } } := by decide
  exact ⟨⟨hfits, hwritten wide hfits⟩, _, hloose, rfl, hread looseJson _ hloose⟩

end Diagnostic

end LabelGraph
