import LabelGraph.Proofs.Parse.Lockstep

/-!
How deep blocks may nest, and how grave a reference to an undefined label is. Both decide on
what is reported and on nothing else: a block that is too deep is opened all the same, and a
reference that leads nowhere adds nothing, however grave it is.
-/

namespace LabelGraph

/-- The diagnostic without what the two settings decide. A block that is too deep leaves
nothing, an undefined label counts as an error. -/
def Diagnostic.strict? (d : Diagnostic) : Option Diagnostic :=
  if d.code = Code.unbalanced ∧ "blocks nested deeper".toList <+: d.message.toList then none
  else if d.code = Code.unresolved then some { d with severity := .error }
  else some d

namespace Parse

theorem tooDeep_strict? (limit : UInt32) (brace : Token) :
    (tooDeep limit brace).strict? = none := by
  have hsplit : "blocks nested deeper than " = "blocks nested deeper" ++ " than " := rfl
  have hmessage : (tooDeep limit brace).message =
      "blocks nested deeper" ++ (" than " ++ toString limit) := by
    rw [← String.append_assoc, ← hsplit]
    rfl
  refine if_pos ⟨rfl, ?_⟩
  rw [hmessage, String.toList_append]
  exact List.prefix_append ..

/-- The severity of an undefined label does not count. -/
theorem strict?_of_unresolved {d : Diagnostic} (hcode : d.code = Code.unresolved)
    (severity : Severity) : Diagnostic.strict? { d with severity } = d.strict? := by
  have hother : ¬ (d.code = Code.unbalanced ∧ "blocks nested deeper".toList <+: d.message.toList) :=
    fun h => absurd (hcode.symm.trans h.1) (by decide)
  rw [Diagnostic.strict?, Diagnostic.strict?, if_neg hother, if_neg hother, if_pos hcode,
    if_pos hcode]

end Parse

namespace Comparison

open Parse

def overLeniency (settings : Settings) (depth : UInt32) (severity : Severity) : Comparison where
  left := settings
  right := { settings with maxBlockDepth := depth, unresolvedSeverity := severity }
  exact := True
  token := Eq
  span := Eq
  reports ds es := es.toList.filterMap Diagnostic.strict? = ds.toList.filterMap Diagnostic.strict?

theorem overLeniency_lawful (settings : Settings) (depth : UInt32) (severity : Severity)
    (hlimit : settings.maxDiagnostics = none) :
    (overLeniency settings depth severity).Lawful where
  text := by rintro a b rfl; rfl
  place := by rintro a b rfl; rfl
  join := by rintro a _ b _ rfl rfl; rfl
  push := by
    intro ds es d e hreports hde
    have hstrict : e.strict? = d.strict? := by
      rcases hde.eq_or_undefined (fun _ _ => Eq.symm) fun _ _ => Eq.symm with rfl | ⟨hcode, -, rfl⟩
      · rfl
      · exact strict?_of_unresolved hcode severity
    simp only [overLeniency, Array.toList_push, List.filterMap_append] at hreports ⊢
    rw [hreports]
    simp only [List.filterMap_cons, hstrict]
  limit := .inl ⟨hlimit, hlimit⟩
  depth := by
    refine .inr ⟨⟨hlimit, hlimit⟩, fun ds es brace hreports => ?_⟩
    simp only [overLeniency, Array.toList_push, List.filterMap_append, List.filterMap_cons,
      tooDeep_strict?, List.filterMap_nil, List.append_nil] at hreports ⊢
    exact ⟨hreports, hreports⟩
  fatal := by
    intro ds es c d hreports hcause
    obtain rfl := hcause.eq fun _ _ => Eq.symm
    simp only [overLeniency, Array.toList_push, List.filterMap_append] at hreports ⊢
    rw [hreports]

/-- Both parses start with the same symbols. -/
theorem opened_lenient (source : List UInt8) (settings : Settings) (depth : UInt32)
    (severity : Severity) :
    let p := opened source settings none
    let q := opened source
      { settings with maxBlockDepth := depth, unresolvedSeverity := severity } none
    q.symbols = p.symbols ∧ q.seedError = p.seedError := by
  simp only [opened, ofSource, Settings.reserved]
  split <;> exact ⟨rfl, rfl⟩

end Comparison

open Parse

/-- Without a limit on diagnostics, how deep blocks may nest and how grave an undefined label is
change neither how a parse ends nor its graph and its symbols. Its diagnostics stay the same, but
for those of blocks that are too deep and for the severity of undefined labels. -/
theorem parse_lenient (source : List UInt8) (settings : Settings) (depth : UInt32)
    (severity : Severity) (hlimit : settings.maxDiagnostics = none) :
    let p := parse source settings
    let q := parse source { settings with maxBlockDepth := depth, unresolvedSeverity := severity }
    q.phase = p.phase ∧ q.graph = p.graph ∧ q.symbols = p.symbols ∧
      q.diagnostics.toList.filterMap Diagnostic.strict? =
        p.diagnostics.toList.filterMap Diagnostic.strict? := by
  have hrun := Comparison.run_sync source source none none
    (Comparison.overLeniency_lawful settings depth severity hlimit) (by simp) (by simp)
    (fun _ => Comparison.opened_lenient source settings depth severity) rfl rfl
    (.refl (fun _ => rfl) _) (.refl (fun _ => rfl) _ _)
  obtain ⟨hphase, m, m', halike⟩ := hrun.resolve_right fun h => h.1 trivial
  have hsymbols := halike.symbols trivial
  refine ⟨hphase, ?_, hsymbols, halike.reports⟩
  have hgraph := halike.graph_eq (fun _ _ => id) (f := id) ?_
  · exact hgraph.trans (Graph.rename_id _)
  · intro s r hword
    rw [hsymbols] at hword
    exact (hword.eq halike.left.symbols).symm

/-- A block inside a block, and a reference that leads nowhere. -/
theorem parse_lenient_nested :
    ({ maxDiagnostics := none } : Settings).maxDiagnostics = none ∧
    let p := parse "a: \x7b b: \x7b jmp c\n\x7d \x7d\n".toUTF8.toList { maxDiagnostics := none }
    let q := parse "a: \x7b b: \x7b jmp c\n\x7d \x7d\n".toUTF8.toList
      { maxDiagnostics := none, maxBlockDepth := 1, unresolvedSeverity := .warning }
    q.phase = p.phase ∧ q.graph = p.graph ∧ q.symbols = p.symbols ∧
      q.diagnostics.toList.filterMap Diagnostic.strict? =
        p.diagnostics.toList.filterMap Diagnostic.strict? :=
  ⟨rfl, parse_lenient _ { maxDiagnostics := none } 1 .warning rfl⟩

end LabelGraph
