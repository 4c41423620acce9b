import LabelGraph.Parse.Run
import LabelGraph.Proofs.Graph.Growth
import LabelGraph.Proofs.Parse.Change

/-!
What the operations of a parse are made of. Each is a sequence of a few kinds of steps that
stay within its footprint. What all kinds of steps have in common, every operation has, by one
induction: it makes the changes of its footprint, and it does not see the tokens ahead.
-/

namespace LabelGraph

def Settings.withLimit (s : Settings) (limit : Option UInt32) : Settings :=
  { s with maxDiagnostics := limit }

namespace Parse

def facing (rest : List Token) (p : Parse) : Parse := { p with rest }

def resultFacing {α : Type} (rest : List Token) :
    EStateM.Result Fatal Parse α → EStateM.Result Fatal Parse α
  | .ok a q => .ok a (q.facing rest)
  | .error cause q => .error cause (q.facing rest)

def elsewhere (rest : List Token) (limit : Option UInt32) (p : Parse) : Parse :=
  { p with rest, settings := p.settings.withLimit limit }

/-- The operation is made of these steps and stays within the footprint. A step looks at the
tokens ahead only if it may turn to others, and only `report` looks at the limit. -/
inductive Routine (F : Footprint) : {α : Type} → ParseM α → Prop where
  | of_pure {α : Type} (a : α) : Routine F (pure a : ParseM α)
  | of_throw {α : Type} {cause : Fatal} (hcause : F.causes cause)
    (hsudden : ∀ span, cause ≠ .tooMany span) : Routine F (throw cause : ParseM α)
  | bind {α β : Type} {x : ParseM α} {g : α → ParseM β} (hx : Routine F x)
    (hg : ∀ a, Routine F (g a)) : Routine F (x >>= g)
  | of_get {β : Type} {g : Parse → ParseM β}
    (hblind : ∀ rest limit p, g (p.elsewhere rest limit) = g p)
    (hg : ∀ p, Routine F (g p)) : Routine F (get >>= g)
  | of_modify {f : Parse → Parse}
    (hblind : ∀ rest limit p, f (p.elsewhere rest limit) = (f p).elsewhere rest limit)
    (hf : ∀ p, Shift F p (f p)) : Routine F (modify f : ParseM PUnit)
  | of_turn {f : Parse → Parse} (h : F.turns)
    (hblind : ∀ limit p, f (p.elsewhere p.rest limit) = (f p).elsewhere (f p).rest limit)
    (hf : ∀ p, Shift F p (f p)) : Routine F (modify f : ParseM PUnit)
  | of_report {d : Diagnostic} (hd : F.reports d) (hcause : F.causes (.tooMany d.span)) :
    Routine F (report d)
  | of_word {span : Span} (word : String) (hcause : ∀ e, F.causes (.storage e span)) :
    Routine F (intern word span)
  | of_graph {α : Type} {span : Span} {op : StoreM Graph α} (hop : Graph.Additive op)
    (hcause : ∀ e, F.causes (.storage e span)) : Routine F (onGraph span op)

namespace Routine

variable {α : Type} {F G : Footprint} {x : ParseM α} {p q : Parse}

theorem mono (h : Routine F x) (hwithin : F.Within G) : Routine G x := by
  induction h with
  | of_pure a => exact .of_pure a
  | of_throw hcause hsudden => exact .of_throw (hwithin.causes _ hcause) hsudden
  | bind _ _ ihx ihg => exact ihx.bind ihg
  | of_get hblind _ ih => exact .of_get hblind ih
  | of_modify hblind hf => exact .of_modify hblind fun p => (hf p).mono hwithin
  | of_turn h hblind hf => exact .of_turn (hwithin.turns h) hblind fun p => (hf p).mono hwithin
  | of_report hd hcause => exact .of_report (hwithin.reports _ hd) (hwithin.causes _ hcause)
  | of_word word hcause => exact .of_word word fun e => hwithin.causes _ (hcause e)
  | of_graph hop hcause => exact .of_graph hop fun e => hwithin.causes _ (hcause e)

theorem forM {β : Type} {x : β → ParseM PUnit} {l : List β} (h : ∀ b ∈ l, Routine F (x b)) :
    Routine F (l.forM x) := by
  induction l with
  | nil => exact .of_pure _
  | cons b l ih =>
    obtain ⟨hb, hmore⟩ := List.forall_mem_cons.1 h
    exact hb.bind fun _ => ih hmore

/-- Whether a routine succeeds or not, it makes the changes of its footprint. -/
theorem changes (h : Routine F x) (p : Parse) : Changes F p (after x p) := by
  induction h generalizing p with
  | of_pure a => exact .refl
  | of_throw _ _ => exact .refl
  | @bind _ _ x g _ _ ihx ihg =>
    have hx := ihx p
    cases h : x p with
    | ok a q =>
      rw [after_of_ok h] at hx
      rw [after_bind_of_ok h]
      exact hx.trans (ihg a q)
    | error cause q =>
      rw [after_of_error h] at hx
      rwa [after_bind_of_error h]
  | of_get _ _ ih => exact ih p p
  | of_modify _ hf => exact .single (.shift (hf p))
  | of_turn _ _ hf => exact .single (.shift (hf p))
  | of_report hd _ =>
    rw [after_report]
    exact .single (.report hd)
  | of_word word _ =>
    simp only [after, intern, onSymbols]
    cases h : SymbolTable.intern word p.symbols with
    | ok s t => exact .single (.symbols h)
    | error e t =>
      obtain rfl := SymbolTable.intern_unchanged h
      exact .refl
  | @of_graph _ _ op _ _ =>
    simp only [after, onGraph]
    cases op p.graph <;> exact .single (.graph _)

theorem changes_of_ok (h : Routine F x) {a : α} (hx : x p = .ok a q) : Changes F p q := by
  have hchanges := h.changes p
  rwa [after_of_ok hx] at hchanges

theorem changes_of_error (h : Routine F x) {cause : Fatal} (hx : x p = .error cause q) :
    Changes F p q := by
  have hchanges := h.changes p
  rwa [after_of_error hx] at hchanges

theorem cause_of_error (h : Routine F x) {cause : Fatal} (hx : x p = .error cause q) :
    F.causes cause := by
  induction h generalizing p q with
  | of_pure a => cases hx
  | of_throw hcause _ =>
    cases hx
    exact hcause
  | bind _ _ ihx ihg =>
    rcases bind_error_iff.1 hx with hx | ⟨a, r, -, hg⟩
    · exact ihx hx
    · exact ihg a hg
  | of_get _ _ ih => exact ih p hx
  | of_modify _ _ => cases hx
  | of_turn _ _ _ => cases hx
  | @of_report d _ hcause =>
    rcases report_cases d p with h | ⟨-, h⟩
    · rw [h] at hx
      cases hx
    · rw [h] at hx
      cases hx
      exact hcause
  | of_word word hcause =>
    simp only [intern, onSymbols] at hx
    cases h : SymbolTable.intern word p.symbols <;> rw [h] at hx <;> cases hx
    exact hcause _
  | @of_graph _ _ op _ hcause =>
    simp only [onGraph] at hx
    cases h : op p.graph <;> rw [h] at hx <;> cases hx
    exact hcause _

/-- What a routine does within a line, it does in front of any tokens. -/
theorem blind (h : Routine F x) (hF : ¬ F.turns) (rest : List Token) (p : Parse) :
    x (p.facing rest) = resultFacing rest (x p) := by
  induction h generalizing p with
  | of_pure a => rfl
  | of_throw _ _ => rfl
  | @bind _ _ x g _ _ ihx ihg =>
    have hrun := ihx p
    cases h : x p with
    | ok a q =>
      rw [h] at hrun
      rw [bind_of_ok hrun, bind_of_ok h]
      exact ihg a q
    | error cause q =>
      rw [h] at hrun
      rw [bind_of_error hrun, bind_of_error h]
      rfl
  | @of_get _ g hblind _ ih =>
    have hsame : g (p.facing rest) = g p := hblind rest p.settings.maxDiagnostics p
    rw [bind_get, bind_get, hsame]
    exact ih p p
  | @of_modify f hblind hf =>
    have hsettings : (f p).settings = p.settings := congrArg Prod.fst (hf p).record
    have hsame : f (p.facing rest) = (f p).facing rest :=
      calc f (p.facing rest)
        _ = (f p).elsewhere rest p.settings.maxDiagnostics := hblind rest _ p
        _ = (f p).facing rest := by rw [← hsettings]; rfl
    exact congrArg (EStateM.Result.ok PUnit.unit) hsame
  | of_turn h _ _ => exact absurd h hF
  | @of_report d _ _ =>
    have hsettings : (p.facing rest).settings = p.settings := rfl
    simp only [report, hsettings]
    cases p.settings.maxDiagnostics with
    | none => rfl
    | some limit =>
      change (if limit.toNat ≤ (p.diagnostics.push d).size then _ else _) = _
      dsimp only
      split <;> rfl
  | @of_word span word _ =>
    have hsymbols : (p.facing rest).symbols = p.symbols := rfl
    simp only [intern, onSymbols, hsymbols]
    cases SymbolTable.intern word p.symbols <;> rfl
  | @of_graph _ span op _ _ =>
    have hgraph : (p.facing rest).graph = p.graph := rfl
    simp only [onGraph, hgraph]
    cases op p.graph <;> rfl

end Routine

/-! The operations. -/

section Operations

variable {F : Footprint} {span : Span}

theorem link_routine (hcause : ∀ e, F.causes (.storage e span)) (source target : NodeId)
    (label : Symbol) (d : Direction) : Routine F (link source target label d span) :=
  .of_graph (Graph.addEdge_additive source target label d span) hcause

theorem declare_routine (hcause : ∀ e, F.causes (.storage e span)) (name : Symbol)
    (kind : NodeKind) : Routine F (declare name kind span) := by
  refine (Routine.of_graph (Graph.createNode_additive name kind span) hcause).bind fun node => ?_
  refine Routine.bind (.of_modify ?_ ?_) fun _ => .of_pure node
  · exact fun _ _ _ => rfl
  · exact fun p => .labels _

theorem reportDuplicate_routine {name : String}
    (hreport : ∀ first, F.reports (duplicateName name first span))
    (hcause : F.causes (.tooMany span)) (first : NodeId) :
    Routine F (reportDuplicate name first span) :=
  .of_get (fun _ _ _ => rfl) fun _ => .of_report (hreport _) hcause

theorem declareLabel_routine (name colon : Token) :
    Routine (Action.declareLabel name colon).footprint (declareLabel name colon) := by
  have hname : name.span ∈ (Action.declareLabel name colon).spans := List.mem_cons_self
  have hjoin : name.span.join colon.span ∈ (Action.declareLabel name colon).spans :=
    List.mem_cons_of_mem _ List.mem_cons_self
  have hscope (node : NodeId) : Routine (Action.declareLabel name colon).footprint
      (modify fun p => { p with scope := some node }) :=
    .of_modify (fun _ _ _ => rfl) fun p => .scope _ p.blocks
  refine (Routine.of_word _ fun _ => hname).bind fun symbol =>
    .of_get (fun _ _ _ => rfl) fun p => ?_
  split
  · refine (reportDuplicate_routine (fun _ => Action.Reports.label) hjoin _).bind fun _ =>
      .of_get (fun _ _ _ => rfl) fun q => ?_
    split
    · split
      · exact hscope _
      · exact .of_pure _
    · exact .of_pure _
  · refine (declare_routine (fun _ => hjoin) _ _).bind fun node =>
      .of_get (fun _ _ _ => rfl) fun q => ?_
    split
    · exact (Routine.of_word _ fun _ => hjoin).bind fun _ =>
        (link_routine (fun _ => hjoin) _ _ _ _).bind fun _ => hscope node
    · exact hscope node

theorem declareExternal_routine (name : Token) :
    Routine (Action.declareExternal name).footprint (declareExternal name) := by
  have hname : name.span ∈ (Action.declareExternal name).spans := List.mem_cons_self
  refine (Routine.of_word _ fun _ => hname).bind fun symbol =>
    .of_get (fun _ _ _ => rfl) fun p => ?_
  split
  · exact reportDuplicate_routine (fun _ => Action.Reports.external) hname _
  · exact (declare_routine (fun _ => hname) _ _).bind fun _ => .of_pure _

theorem refer_routine (name : Token) (d : Direction) :
    Routine (Action.refer name d).footprint (refer name d) := by
  have hname : name.span ∈ (Action.refer name d).spans := List.mem_cons_self
  refine (Routine.of_word _ fun _ => hname).bind fun symbol =>
    .of_get (fun _ _ _ => rfl) fun p => ?_
  split
  · exact .of_report .outside hname
  · refine .of_get (fun _ _ _ => rfl) fun q => ?_
    split
    · exact link_routine (fun _ => hname) _ _ _ _
    · exact .of_modify (fun _ _ _ => rfl) fun p => .pending _

theorem openBlock_routine (brace : Token) :
    Routine (Action.openBlock brace).footprint (openBlock brace) := by
  have hbrace : brace.span ∈ (Action.openBlock brace).spans := List.mem_cons_self
  have hpush : Routine (Action.openBlock brace).footprint (modify fun p : Parse =>
      { p with blocks := p.blocks.push { owner := p.scope, span := brace.span } }) :=
    .of_modify (fun _ _ _ => rfl) fun p => .scope p.scope _
  refine .of_get (fun _ _ _ => rfl) fun p => .of_get (fun _ _ _ => rfl) fun q => ?_
  split
  · exact (Routine.of_report Action.Reports.deep hbrace).bind fun _ => hpush
  · exact hpush

theorem closeBlock_routine (brace : Token) :
    Routine (Action.closeBlock brace).footprint (closeBlock brace) := by
  have hbrace : brace.span ∈ (Action.closeBlock brace).spans := List.mem_cons_self
  refine .of_get (fun _ _ _ => rfl) fun p => ?_
  split
  · exact .of_modify (fun _ _ _ => rfl) fun p => .scope _ _
  · exact .of_report .unmatched hbrace

/-- An action stays within its footprint. -/
theorem act_routine (a : Action) : Routine a.footprint (act a) := by
  cases a with
  | intern word =>
    have hword : word.span ∈ (Action.intern word).spans := List.mem_cons_self
    exact (Routine.of_word _ fun _ => hword).bind fun _ => .of_pure _
  | declareLabel name colon => exact declareLabel_routine name colon
  | declareExternal name => exact declareExternal_routine name
  | refer name d => exact refer_routine name d
  | openBlock brace => exact openBlock_routine brace
  | closeBlock brace => exact closeBlock_routine brace
  | reject t wanted =>
    have ht : (unexpected t wanted).span ∈ (Action.reject t wanted).spans := by
      rw [unexpected_span]
      exact List.mem_cons_self
    exact .of_report .reject ht

theorem resolve_routine (r : Reference) : Routine r.footprint (resolve r) := by
  have hspan (e : StoreError) : r.footprint.causes (.storage e r.span) := rfl
  refine .of_get (fun _ _ _ => rfl) fun p => ?_
  split
  · exact link_routine hspan _ _ _ _
  · -- The name and the severity are read from two states.
    refine .of_get (fun _ _ _ => rfl) fun q => .of_get (fun _ _ _ => rfl) fun s => ?_
    exact .of_report ⟨{ q with settings := s.settings }, rfl⟩ rfl

theorem resolvePending_eq (p : Parse) :
    resolvePending p = p.pending.toList.forM resolve { p with pending := #[] } := by
  have hforM (rs : List Reference) : rs.forM resolve = rs.foldlM (fun _ => resolve) () := by
    induction rs with
    | nil => rfl
    | cons r rs ih =>
      rw [List.foldlM_cons]
      exact congrArg (resolve r >>= ·) (funext fun _ => ih)
  rw [hforM, Array.foldlM_toList]
  rfl

theorem resolvePending_routine : Routine .closing resolvePending := by
  have heq : resolvePending = (get >>= fun p =>
      modify (fun p => { p with pending := #[] }) >>= fun _ => p.pending.toList.forM resolve) :=
    funext resolvePending_eq
  rw [heq]
  refine .of_get ?_ fun p => Routine.bind (.of_modify ?_ ?_) fun _ => ?_
  · exact fun _ _ _ => rfl
  · exact fun _ _ _ => rfl
  · exact fun p => .pending _
  · exact .forM fun r _ => (resolve_routine r).mono r.within_closing

theorem finish_routine : Routine .closing finish := by
  refine resolvePending_routine.bind fun _ => .of_get (fun _ _ _ => rfl) fun p => ?_
  split
  · exact .of_throw trivial fun _ => nofun
  · exact .of_turn trivial (fun _ _ => rfl) fun p => .turn trivial p.rest nofun

end Operations

end Parse

end LabelGraph
