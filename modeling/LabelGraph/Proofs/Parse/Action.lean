import LabelGraph.Proofs.Parse.Effect

/-!
The actions of a parse have their effects, or fail as they can, and so does a reference that
waited for the end of the text.
-/

namespace LabelGraph

namespace Parse

/-! The operations on the storage. Whether one succeeds depends on the room that is left. -/

section Storage

variable {p : Parse} {m : Ledger} {s : Symbol} {t : SymbolTable} {word : String}
  {source target : NodeId}

theorem intern_granted (h : SymbolTable.intern word p.symbols = .ok s t) (span : Span) :
    intern word span p = .ok s { p with symbols := t } := by
  simp only [intern, onSymbols, h]

/-- A word for which there is no room leaves everything as it was. -/
theorem intern_refused {e : StoreError} (h : SymbolTable.intern word p.symbols = .error e t)
    (span : Span) :
    intern word span p = .error (.storage (.capacityExceeded .symbol indexCapacity) span) p := by
  obtain ⟨rfl, -⟩ := SymbolTable.intern_error h
  obtain rfl := SymbolTable.intern_unchanged h
  simp only [intern, onSymbols, h]

namespace Sound

theorem declare_ok (h : p.Sound m) (hroom : m.nodes.length < indexCapacity) (s : Symbol)
    (kind : NodeKind) (span : Span) :
    ∃ g, declare s kind span p = .ok ⟨m.nodes.length⟩
        { p with graph := g, labels := p.labels.insert s ⟨m.nodes.length⟩ } ∧
      g.Dense (m.addNode ⟨⟨m.nodes.length⟩, s, kind, span⟩) := by
  obtain ⟨g, hcreate, hdense⟩ := h.dense.createNode_ok hroom s kind span
  have hop : onGraph span (Graph.createNode s kind span) p =
      .ok ⟨m.nodes.length⟩ { p with graph := g } := by
    simp only [onGraph, hcreate]
  exact ⟨g, (bind_of_ok hop).trans rfl, hdense⟩

theorem declare_full (h : p.Sound m) (hfull : indexCapacity ≤ m.nodes.length) (s : Symbol)
    (kind : NodeKind) (span : Span) :
    declare s kind span p = .error (.storage (.capacityExceeded .node indexCapacity) span) p := by
  have hcreate := h.dense.shape.createNode_full hfull s kind span
  apply bind_of_error
  simp only [onGraph, hcreate]

theorem link_ok (h : p.Sound m) (hsource : source.index < m.nodes.length)
    (htarget : target.index < m.nodes.length) (hroom : m.live.length < indexCapacity)
    (label : Symbol) (d : Direction) (span : Span) :
    ∃ g, link source target label d span p = .ok () { p with graph := g } ∧
      g.Dense (m.addEdge ⟨⟨m.live.length, 0⟩, source, target, label, d, span⟩) := by
  obtain ⟨g, hadd, hdense⟩ := h.dense.addEdge_ok hsource htarget hroom label d span
  refine ⟨g, ?_, hdense⟩
  simp only [link, onGraph, discard_of_ok hadd]

theorem link_full (h : p.Sound m) (hsource : source.index < m.nodes.length)
    (htarget : target.index < m.nodes.length) (hfull : indexCapacity ≤ m.live.length)
    (label : Symbol) (d : Direction) (span : Span) :
    link source target label d span p =
      .error (.storage (.capacityExceeded .edge indexCapacity) span) p := by
  have hadd := h.dense.shape.addEdge_full hsource htarget hfull label d span
  simp only [link, onGraph, discard_of_error hadd]

end Sound

end Storage

/-! The actions. -/

/-- An action ends as its effects and failures say. -/
inductive Outcome (p : Parse) (m : Ledger) (a : Action) :
    EStateM.Result Fatal Parse Unit → Prop where
  | done {q : Parse} {m' : Ledger} (h : Effect p m a q m') : Outcome p m a (.ok () q)
  | failed {cause : Fatal} {q : Parse} {m' : Ledger} (h : Halt p m a cause q m') :
    Outcome p m a (.error cause q)

namespace Outcome

variable {p : Parse} {m : Ledger} {a : Action} {d : Diagnostic} {t : SymbolTable}
  {x y : ParseM Unit}

/-- A fault is reported before the action goes on, unless the report is one too many. -/
theorem of_report (hfaulty : Faulty p m a d t)
    (hx : x { p with symbols := t } = report d { p with symbols := t })
    (h : Outcome p m a (y { p with symbols := t, diagnostics := p.diagnostics.push d })) :
    Outcome p m a ((x >>= fun _ => y) { p with symbols := t }) := by
  rcases report_cases d { p with symbols := t } with hok | ⟨⟨limit, hlimit⟩, hfull⟩
  · rwa [bind_of_ok (hx.trans hok)]
  · rw [bind_of_error (hx.trans hfull)]
    exact .failed (.tooMany hfaulty hlimit)

theorem reported (hfaulty : Faulty p m a d t)
    (h : Effect p m a { p with symbols := t, diagnostics := p.diagnostics.push d } m) :
    Outcome p m a (report d { p with symbols := t }) := by
  rcases report_cases d { p with symbols := t } with hok | ⟨⟨limit, hlimit⟩, hfull⟩
  · rw [hok]
    exact .done h
  · rw [hfull]
    exact .failed (.tooMany hfaulty hlimit)

end Outcome

section Actions

variable {p : Parse} {m : Ledger} (hp : p.Sound m)

include hp

theorem reportDuplicate_eq {r : NodeRecord} (hr : r ∈ m.nodes) (name : String) (span : Span)
    (t : SymbolTable) :
    reportDuplicate name r.id span { p with symbols := t } =
      report (duplicateName name r.span span) { p with symbols := t } := by
  rw [reportDuplicate, bind_get, (hp.node_of_mem hr).2]
  rfl

theorem declareLabel_outcome (name colon : Token) :
    Outcome p m (.declareLabel name colon) (declareLabel name colon p) := by
  rw [declareLabel]
  cases hintern : SymbolTable.intern name.text p.symbols with
  | error e t =>
    rw [bind_of_error (intern_refused hintern _)]
    exact .failed (.word (SymbolTable.intern_error hintern).2)
  | ok s t =>
  rw [bind_of_ok (intern_granted hintern _), bind_get]
  have hsound := hp.with_symbols hintern
  cases hlabel : p.labels[s]? with
  | some first =>
    simp only
    obtain ⟨r, hr, hname, rfl⟩ := (hp.labels s first).1 hlabel
    refine .of_report (.label hintern hr hname) (reportDuplicate_eq hp hr _ _ t) ?_
    obtain ⟨first, hnode⟩ := (hp.node_of_mem hr).1
    have heffect : Effect p m (.declareLabel name colon) _ m := .oldLabel hintern hr hname
    simp only [bind_get, hnode]
    by_cases hkind : r.kind = .label
    · rw [if_pos hkind] at heffect ⊢
      exact .done heffect
    · rw [if_neg hkind] at heffect ⊢
      exact .done heffect
  | none =>
    simp only
    by_cases hroom : m.nodes.length < indexCapacity
    case neg =>
      rw [bind_of_error (hsound.declare_full (Nat.not_lt.1 hroom) s _ _)]
      exact .failed (.node hintern hlabel (Nat.not_lt.1 hroom))
    obtain ⟨g, hdeclare, hnode⟩ := hsound.declare_ok hroom s .label (name.span.join colon.span)
    have hword := (SymbolTable.intern_ok hp.symbols hintern).2.1
    have hsound := hsound.with_node hword hlabel hnode
    rw [bind_of_ok hdeclare, bind_get]
    cases howner : p.blocks.back?.bind Block.owner with
    | none =>
      simp only
      exact .done (.newLabel hintern hlabel howner hnode)
    | some owner =>
      simp only
      cases hcontains : SymbolTable.intern Keywords.containsLabel t with
      | error e u =>
        rw [bind_of_error (intern_refused hcontains _)]
        exact .failed (.containsWord hintern hlabel hnode (SymbolTable.intern_error hcontains).2)
      | ok contains u =>
      rw [bind_of_ok (intern_granted hcontains _)]
      have hsound := hsound.with_symbols hcontains
      have hinside := hsound.owner_lt howner
      have hnew : m.nodes.length < (m.addNode
          ⟨⟨m.nodes.length⟩, s, .label, name.span.join colon.span⟩).nodes.length := by
        simp
      by_cases hroom : m.live.length < indexCapacity
      · obtain ⟨h, hlink, hedge⟩ := hsound.link_ok hinside hnew hroom contains .outgoing
          (name.span.join colon.span)
        rw [bind_of_ok hlink]
        exact .done (.newLabelInside hintern hlabel howner hcontains hnode hedge)
      · have hfull := Nat.not_lt.1 hroom
        rw [bind_of_error (hsound.link_full hinside hnew hfull contains .outgoing _)]
        exact .failed (.containsEdge hintern hlabel hcontains hnode hfull)

theorem declareExternal_outcome (name : Token) :
    Outcome p m (.declareExternal name) (declareExternal name p) := by
  rw [declareExternal]
  cases hintern : SymbolTable.intern name.text p.symbols with
  | error e t =>
    rw [bind_of_error (intern_refused hintern _)]
    exact .failed (.word (SymbolTable.intern_error hintern).2)
  | ok s t =>
  rw [bind_of_ok (intern_granted hintern _), bind_get]
  have hsound := hp.with_symbols hintern
  cases hlabel : p.labels[s]? with
  | some first =>
    simp only
    obtain ⟨r, hr, hname, rfl⟩ := (hp.labels s first).1 hlabel
    rw [reportDuplicate_eq hp hr]
    exact .reported (.external hintern hr hname) (.oldExternal hintern hr hname)
  | none =>
    simp only
    by_cases hroom : m.nodes.length < indexCapacity
    · obtain ⟨g, hdeclare, hnode⟩ := hsound.declare_ok hroom s .external name.span
      rw [discard_of_ok hdeclare]
      exact .done (.newExternal hintern hlabel hnode)
    · have hfull := Nat.not_lt.1 hroom
      rw [discard_of_error (hsound.declare_full hfull s .external _)]
      exact .failed (.node hintern hlabel hfull)

theorem refer_outcome (name : Token) (d : Direction) :
    Outcome p m (.refer name d) (refer name d p) := by
  rw [refer]
  cases hintern : SymbolTable.intern name.text p.symbols with
  | error e t =>
    rw [bind_of_error (intern_refused hintern _)]
    exact .failed (.word (SymbolTable.intern_error hintern).2)
  | ok s t =>
  rw [bind_of_ok (intern_granted hintern _), bind_get]
  have hsound := hp.with_symbols hintern
  -- A case split on the scope would also replace the scope of the state.
  generalize hp₁ : ({ p with symbols := t } : Parse) = p₁ at hsound ⊢
  cases hscope : p₁.scope with
  | none =>
    subst hp₁
    exact .reported (.outside hintern hscope) (.outside hintern hscope)
  | some scope =>
    simp only [bind_get]
    cases htarget : p₁.labels[s]? with
    | none =>
      subst hp₁
      exact .done (.queued hintern hscope htarget)
    | some target =>
      have hsource := hsound.scope scope hscope
      have hlabel := hsound.label_lt htarget
      by_cases hroom : m.live.length < indexCapacity
      · obtain ⟨g, hlink, hedge⟩ := hsound.link_ok hsource hlabel hroom s d name.span
        simp only [hlink]
        subst hp₁
        exact .done (.linked hintern hscope htarget hedge)
      · have hfull := Nat.not_lt.1 hroom
        simp only [hsound.link_full hsource hlabel hfull]
        subst hp₁
        exact .failed (.edge hintern hfull)

theorem act_outcome (a : Action) : Outcome p m a (act a p) := by
  cases a with
  | declareLabel name colon => exact declareLabel_outcome hp name colon
  | declareExternal name => exact declareExternal_outcome hp name
  | refer name d => exact refer_outcome hp name d
  | reject t wanted => exact .reported (t := p.symbols) .reject .reject
  | intern word =>
    rw [act]
    cases hintern : SymbolTable.intern word.text p.symbols with
    | error e t =>
      rw [discard_of_error (intern_refused hintern _)]
      exact .failed (.word (SymbolTable.intern_error hintern).2)
    | ok s t =>
      rw [discard_of_ok (intern_granted hintern _)]
      exact .done (.intern hintern)
  | openBlock brace =>
    have heffect : Effect p m (.openBlock brace) _ m := .openBlock
    simp only [act, openBlock, bind_get]
    by_cases hdeep : p.settings.maxBlockDepth.toNat ≤ p.blocks.size
    · rw [if_pos hdeep] at heffect ⊢
      exact .of_report (t := p.symbols) (.deep hdeep) rfl (.done heffect)
    · rw [if_neg hdeep] at heffect ⊢
      exact .done heffect
  | closeBlock brace =>
    simp only [act, closeBlock, bind_get]
    cases hback : p.blocks.back? with
    | some block => exact .done (.closeBlock hback)
    | none => exact .reported (t := p.symbols) (.unmatched hback) (.unmatched hback)

end Actions

/-! Waiting references. -/

/-- A waiting reference is linked if its label is declared, and reported if it is not. -/
inductive Resolved (p : Parse) (m : Ledger) (r : Reference) :
    EStateM.Result Fatal Parse Unit → Prop where
  | linked {target : NodeId} {g : Graph} (htarget : p.labels[r.name]? = some target)
    (hedge : g.Dense
      (m.addEdge ⟨⟨m.live.length, 0⟩, r.scope, target, r.name, r.direction, r.span⟩)) :
    Resolved p m r (.ok () { p with graph := g })
  | undefined (hnone : p.labels[r.name]? = none) :
    Resolved p m r (.ok () { p with diagnostics := p.diagnostics.push (p.undefinedLabel r) })
  | full (hfull : indexCapacity ≤ m.live.length) :
    Resolved p m r (.error (.storage (.capacityExceeded .edge indexCapacity) r.span) p)
  | tooMany {limit : UInt32} (hlimit : p.settings.maxDiagnostics = some limit) :
    Resolved p m r (.error (.tooMany r.span)
      { p with diagnostics := p.diagnostics.push (p.undefinedLabel r) })

theorem resolve_resolved {p : Parse} {m : Ledger} {r : Reference} (hp : p.Sound m)
    (hscope : r.scope.index < m.nodes.length) : Resolved p m r (resolve r p) := by
  simp only [resolve, bind_get]
  cases htarget : p.labels[r.name]? with
  | some target =>
    have hlabel := hp.label_lt htarget
    by_cases hroom : m.live.length < indexCapacity
    · obtain ⟨g, hlink, hedge⟩ := hp.link_ok hscope hlabel hroom r.name r.direction r.span
      simp only [hlink]
      exact .linked htarget hedge
    · have hfull := Nat.not_lt.1 hroom
      simp only [hp.link_full hscope hlabel hfull]
      exact .full hfull
  | none =>
    change Resolved p m r (report (p.undefinedLabel r) p)
    rcases report_cases (p.undefinedLabel r) p with hok | ⟨⟨limit, hlimit⟩, hfull⟩
    · rw [hok]
      exact .undefined htarget
    · rw [hfull]
      exact .tooMany hlimit

end Parse

end LabelGraph
