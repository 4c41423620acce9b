import LabelGraph.Proofs.Parse.Outcome

/-!
A limit on diagnostics. Under a limit a parse takes the same steps as without one, up to
the diagnostic that reaches the limit, and stops there. So what it leaves behind is the
beginning of what the whole parse leaves behind.
-/

namespace LabelGraph

theorem Fatal.code_not_report (limit : Option UInt32) (cause : Fatal) :
    (cause.diagnostic limit).code ∉ Code.reports := by
  cases cause with
  | storage cause span =>
    rw [diagnostic]
    by_cases h : cause.isCapacity
    · rw [if_pos h]
      exact (by decide : Code.capacity ∉ Code.reports)
    · rw [if_neg h]
      exact (by decide : Code.storage ∉ Code.reports)
  | corrupt span => exact (by decide : Code.corrupt ∉ Code.reports)
  | unclosed span => exact (by decide : Code.unclosed ∉ Code.reports)
  | tooMany span => exact (by decide : Code.tooMany ∉ Code.reports)

namespace SymbolTable

theorem intern_words (word : String) (t : SymbolTable) :
    (∃ s u, intern word t = .ok s u ∧ t.words.toList <+: u.words.toList) ∨
      ∃ e, intern word t = .error e t := by
  rw [intern]
  split
  · exact .inl ⟨_, _, rfl, List.prefix_rfl⟩
  · split
    · refine .inl ⟨_, _, rfl, ?_⟩
      rw [Array.toList_push]
      exact List.prefix_append ..
    · exact .inr ⟨_, rfl⟩

end SymbolTable

namespace Parse

/-- How many diagnostics are about the text, and not about the end of the parse. -/
def reported (p : Parse) : Nat := p.diagnostics.toList.countP (·.code ∈ Code.reports)

def withLimit (limit : UInt32) (p : Parse) : Parse :=
  { p with settings := p.settings.withLimit (some limit) }

/-- The number of diagnostics that end a parse. Even under the limit zero the first one
is written down. -/
def quota (limit : UInt32) : Nat := max limit.toNat 1

structure Begins (p q : Parse) : Prop where
  words : p.symbols.words.toList <+: q.symbols.words.toList
  graph : p.graph.Begins q.graph
  diagnostics : p.diagnostics.toList <+: q.diagnostics.toList

structure Unlimited (p : Parse) : Prop where
  settings : p.settings.maxDiagnostics = none
  reports : ∀ d ∈ p.diagnostics.toList, d.code ∈ Code.reports
  graph : ∃ m, p.graph.Dense m

/-- The state `r` reached the limit on the way to `q`, with a diagnostic at `span`. -/
structure Reaches (limit : UInt32) (span : Span) (r q : Parse) : Prop where
  settings : r.settings.maxDiagnostics = some limit
  size : r.diagnostics.size = quota limit
  last : r.diagnostics.back?.map Diagnostic.span = some span
  begins : r.Begins q

def resultWithLimit {α : Type} (limit : UInt32) :
    EStateM.Result Fatal Parse α → EStateM.Result Fatal Parse α
  | .ok a q => .ok a (q.withLimit limit)
  | .error cause q => .error cause (q.withLimit limit)

/-- Without a limit the operation only adds to the state. Under a limit it does the same,
or the limit is reached on the way and it fails there. -/
structure Bounded {α : Type} (limit : UInt32) (x : ParseM α) : Prop where
  adds : ∀ p, p.Unlimited → (after x p).Unlimited ∧ p.Begins (after x p)
  cause : ∀ p, p.Unlimited → ∀ span q, x p ≠ .error (.tooMany span) q
  run : ∀ p, p.Unlimited → p.diagnostics.size < quota limit →
    (after x p).diagnostics.size < quota limit ∧
        x (p.withLimit limit) = resultWithLimit limit (x p) ∨
      ∃ span r, x (p.withLimit limit) = .error (.tooMany span) r ∧ Reaches limit span r (after x p)

theorem Begins.refl (p : Parse) : p.Begins p := ⟨List.prefix_rfl, .refl _, List.prefix_rfl⟩

theorem Begins.trans {p q r : Parse} (h : p.Begins q) (h' : q.Begins r) : p.Begins r :=
  ⟨h.words.trans h'.words, h.graph.trans h'.graph, h.diagnostics.trans h'.diagnostics⟩

section Record

variable {p q : Parse} (h : q.record = p.record)

include h

theorem Unlimited.of_record (hp : p.Unlimited) : q.Unlimited := by
  simp only [record, Prod.mk.injEq] at h
  obtain ⟨hsettings, -, hgraph, hdiagnostics⟩ := h
  exact ⟨hsettings ▸ hp.settings, hdiagnostics ▸ hp.reports, hgraph ▸ hp.graph⟩

theorem Begins.of_record : p.Begins q := by
  simp only [record, Prod.mk.injEq] at h
  obtain ⟨-, hsymbols, hgraph, hdiagnostics⟩ := h
  exact ⟨hsymbols ▸ List.prefix_rfl, hgraph ▸ .refl _, hdiagnostics ▸ List.prefix_rfl⟩

end Record

theorem Begins.size {p q : Parse} (h : p.Begins q) : p.diagnostics.size ≤ q.diagnostics.size :=
  h.diagnostics.length_le

namespace Bounded

variable {α β : Type} {limit : UInt32}

/-- An operation that reports nothing does the same under a limit. -/
theorem of_silent {x : ParseM α}
    (hadds : ∀ p, p.Unlimited → (after x p).Unlimited ∧ p.Begins (after x p))
    (hcause : ∀ p span q, x p ≠ .error (.tooMany span) q)
    (hreports : ∀ p, (after x p).diagnostics = p.diagnostics)
    (hrun : ∀ p, x (p.withLimit limit) = resultWithLimit limit (x p)) : Bounded limit x where
  adds := hadds
  cause p _ := hcause p
  run p _ hsize := .inl ⟨by rwa [hreports], hrun p⟩

theorem of_modify {f : Parse → Parse} (hlimit : ∀ p, f (p.withLimit limit) = (f p).withLimit limit)
    (hrecord : ∀ p, (f p).record = p.record) : Bounded limit (modify f : ParseM PUnit) := by
  refine of_silent ?_ (fun _ _ _ => nofun) ?_ ?_
  · intro p hp
    exact ⟨hp.of_record (hrecord p), .of_record (hrecord p)⟩
  · intro p
    exact congrArg (·.2.2.2) (hrecord p)
  · intro p
    exact congrArg (EStateM.Result.ok PUnit.unit) (hlimit p)

theorem bind {x : ParseM α} {g : α → ParseM β} (hx : Bounded limit x)
    (hg : ∀ a, Bounded limit (g a)) : Bounded limit (x >>= g) where
  adds p hp := by
    obtain ⟨hq, hbegins⟩ := hx.adds p hp
    cases h : x p with
    | error e q =>
      rw [after_of_error h] at hq hbegins
      rw [after_bind_of_error h]
      exact ⟨hq, hbegins⟩
    | ok a q =>
      rw [after_of_ok h] at hq hbegins
      rw [after_bind_of_ok h]
      exact ((hg a).adds q hq).imp_right hbegins.trans
  cause p hp span r heq := by
    rcases bind_error_iff.1 heq with h | ⟨a, q, h, hnext⟩
    · exact hx.cause p hp span r h
    · have hq := (hx.adds p hp).1
      rw [after_of_ok h] at hq
      exact (hg a).cause q hq span r hnext
  run p hp hsize := by
    obtain ⟨hq, -⟩ := hx.adds p hp
    rcases hx.run p hp hsize with ⟨hsize', hrun⟩ | ⟨span, r, hrun, hcut⟩
    · cases h : x p with
      | error e q =>
        rw [h] at hrun
        rw [after_of_error h] at hsize'
        rw [after_bind_of_error h, bind_of_error hrun, bind_of_error h]
        exact .inl ⟨hsize', rfl⟩
      | ok a q =>
        rw [h] at hrun
        rw [after_of_ok h] at hq hsize'
        rw [after_bind_of_ok h, bind_of_ok hrun, bind_of_ok h]
        exact (hg a).run q hq hsize'
    · refine .inr ⟨span, r, bind_of_error hrun, ?_⟩
      cases h : x p with
      | error e q =>
        rw [after_of_error h] at hcut
        rwa [after_bind_of_error h]
      | ok a q =>
        rw [after_of_ok h] at hq hcut
        rw [after_bind_of_ok h]
        exact { hcut with begins := hcut.begins.trans ((hg a).adds q hq).2 }

/-- The state that is read is the same under a limit, as far as the rest depends on it. -/
theorem of_get {g : Parse → ParseM β} (hsame : ∀ p, g (p.withLimit limit) = g p)
    (hg : ∀ p, Bounded limit (g p)) : Bounded limit (get >>= g) where
  adds p := (hg p).adds p
  cause p := (hg p).cause p
  run p hp hsize := by
    have hrun : (get >>= g) (p.withLimit limit) = g p (p.withLimit limit) :=
      congrFun (hsame p) _
    rw [hrun]
    exact (hg p).run p hp hsize

end Bounded

/-! The kinds of steps. -/

section Operations

variable {limit : UInt32}

theorem report_bounded {d : Diagnostic} (hd : d.code ∈ Code.reports) :
    Bounded limit (report d) := by
  have hopen {p : Parse} (hp : p.Unlimited) :
      report d p = .ok () { p with diagnostics := p.diagnostics.push d } := by
    rw [report, hp.settings]
  have hpush (p : Parse) : p.Begins { p with diagnostics := p.diagnostics.push d } :=
    ⟨List.prefix_rfl, .refl _, by rw [Array.toList_push]; exact List.prefix_append ..⟩
  constructor
  case adds =>
    intro p hp
    rw [after_of_ok (hopen hp)]
    refine ⟨⟨hp.settings, ?_, hp.graph⟩, hpush p⟩
    intro e he
    rw [Array.toList_push, List.mem_append, List.mem_singleton] at he
    rcases he with he | rfl
    · exact hp.reports e he
    · exact hd
  case cause =>
    intro p hp span q
    rw [hopen hp]
    intro h
    cases h
  case run =>
    intro p hp hsize
    have hlimit : report d (p.withLimit limit) =
        if limit.toNat ≤ p.diagnostics.size + 1 then
          .error (.tooMany d.span) (withLimit limit { p with diagnostics := p.diagnostics.push d })
        else .ok () (withLimit limit { p with diagnostics := p.diagnostics.push d }) := by
      rw [report, Array.size_push]
      rfl
    rw [after_of_ok (hopen hp), hlimit, hopen hp, Array.size_push]
    rw [quota] at hsize ⊢
    by_cases hfull : limit.toNat ≤ p.diagnostics.size + 1
    · rw [if_pos hfull]
      refine .inr ⟨d.span, _, rfl, rfl, ?_, ?_, ⟨List.prefix_rfl, .refl _, List.prefix_rfl⟩⟩
      · change (p.diagnostics.push d).size = quota limit
        rw [quota, Array.size_push]
        omega
      · exact congrArg (Option.map Diagnostic.span) Array.back?_push
    · rw [if_neg hfull]
      exact .inl ⟨by omega, rfl⟩

theorem onGraph_bounded {α : Type} (span : Span) {op : StoreM Graph α} (hop : Graph.Additive op) :
    Bounded limit (onGraph span op) := by
  refine .of_silent ?_ ?_ ?_ ?_
  · intro p hp
    obtain ⟨m, hdense⟩ := hp.graph
    rcases hop p.graph m hdense with ⟨a, g, m', hrun, hdense', hbegins⟩ | ⟨e, hrun⟩
    · have hq : after (onGraph span op) p = { p with graph := g } := by
        simp only [after, onGraph, hrun]
      rw [hq]
      exact ⟨⟨hp.settings, hp.reports, m', hdense'⟩, List.prefix_rfl, hbegins, List.prefix_rfl⟩
    · have hq : after (onGraph span op) p = p := by
        simp only [after, onGraph, hrun]
      rw [hq]
      exact ⟨hp, .refl p⟩
  · intro p place q h
    simp only [onGraph] at h
    cases hrun : op p.graph <;> rw [hrun] at h <;> cases h
  · intro p
    simp only [after, onGraph]
    cases op p.graph <;> rfl
  · intro p
    have hgraph : (p.withLimit limit).graph = p.graph := rfl
    simp only [onGraph, hgraph]
    cases op p.graph <;> rfl

theorem intern_bounded (word : String) (span : Span) : Bounded limit (intern word span) := by
  refine .of_silent ?_ ?_ ?_ ?_
  · intro p hp
    rcases SymbolTable.intern_words word p.symbols with ⟨s, t, hrun, hwords⟩ | ⟨e, hrun⟩
    · have hq : after (intern word span) p = { p with symbols := t } := by
        simp only [after, intern, onSymbols, hrun]
      rw [hq]
      exact ⟨⟨hp.settings, hp.reports, hp.graph⟩, hwords, .refl _, List.prefix_rfl⟩
    · have hq : after (intern word span) p = p := by
        simp only [after, intern, onSymbols, hrun]
      rw [hq]
      exact ⟨hp, .refl p⟩
  · intro p place q h
    simp only [intern, onSymbols] at h
    cases hrun : SymbolTable.intern word p.symbols <;> rw [hrun] at h <;> cases h
  · intro p
    simp only [after, intern, onSymbols]
    cases SymbolTable.intern word p.symbols <;> rfl
  · intro p
    have hsymbols : (p.withLimit limit).symbols = p.symbols := rfl
    simp only [intern, onSymbols, hsymbols]
    cases SymbolTable.intern word p.symbols <;> rfl

/-- A routine that only reports on the text is bounded by a limit. -/
theorem Routine.bounded {α : Type} {F : Footprint} {x : ParseM α} (h : Routine F x)
    (hF : ∀ d, F.reports d → d.code ∈ Code.reports) : Bounded limit x := by
  induction h with
  | of_pure a =>
    exact .of_silent (fun p hp => ⟨hp, .refl p⟩) (fun _ _ _ => nofun) (fun _ => rfl) fun _ => rfl
  | of_throw _ hsudden =>
    refine .of_silent (fun p hp => ⟨hp, .refl p⟩) ?_ (fun _ => rfl) fun _ => rfl
    intro p span q heq
    cases heq
    exact hsudden span rfl
  | bind _ _ ihx ihg => exact ihx.bind ihg
  | of_get hblind _ ih => exact .of_get (fun p => hblind p.rest (some limit) p) ih
  | @of_modify f hblind hf =>
    refine .of_modify (fun p => ?_) fun p => (hf p).record
    have hrest : (f p).rest = p.rest := by
      change (f (p.elsewhere p.rest p.settings.maxDiagnostics)).rest = p.rest
      rw [hblind]
      rfl
    calc f (p.withLimit limit)
      _ = (f p).elsewhere p.rest (some limit) := hblind p.rest (some limit) p
      _ = (f p).withLimit limit := by rw [← hrest]; rfl
  | of_turn _ hblind hf => exact .of_modify (hblind (some limit)) fun p => (hf p).record
  | of_report hd _ => exact report_bounded (hF _ hd)
  | of_word word _ => exact intern_bounded word _
  | of_graph hop _ => exact onGraph_bounded _ hop

end Operations

/-! The whole parse. -/

section Whole

variable {limit : UInt32}

theorem diagnostic_of_limit {cause : Fatal} (h : ∀ span, cause ≠ .tooMany span)
    (limit limit' : Option UInt32) : cause.diagnostic limit = cause.diagnostic limit' := by
  cases cause with
  | tooMany span => exact absurd rfl (h span)
  | _ => rfl

theorem fail_withLimit {q : Parse} {cause : Fatal} (h : ∀ span, cause ≠ .tooMany span) :
    (q.withLimit limit).fail cause = (q.fail cause).withLimit limit := by
  rw [fail, diagnostic_of_limit h _ q.settings.maxDiagnostics]
  rfl

theorem begins_fail (q : Parse) (cause : Fatal) : q.Begins (q.fail cause) := by
  refine ⟨List.prefix_rfl, .refl _, ?_⟩
  rw [fail, Array.toList_push]
  exact List.prefix_append ..

theorem Unlimited.reported {q : Parse} (h : q.Unlimited) : q.reported = q.diagnostics.size := by
  rw [Parse.reported, List.countP_eq_length.2, Array.length_toList]
  intro d hd
  exact decide_eq_true (h.reports d hd)

theorem Unlimited.reported_fail {q : Parse} (h : q.Unlimited) (cause : Fatal) :
    (q.fail cause).reported = q.diagnostics.size := by
  have hcause := cause.code_not_report q.settings.maxDiagnostics
  rw [← h.reported]
  simp [fail, Parse.reported, List.countP_append, hcause]

theorem ofSource_withLimit (source : List UInt8) (settings : Settings) (limit : UInt32) :
    ofSource source (settings.withLimit (some limit)) =
      (ofSource source (settings.withLimit none)).withLimit limit := by
  have hreserved (max : Option UInt32) : (settings.withLimit max).reserved = settings.reserved :=
    rfl
  unfold ofSource
  rw [hreserved (some limit), hreserved none]
  cases SymbolTable.seeded settings.reserved <;> rfl

theorem started_unlimited (source : List UInt8) (settings : Settings) :
    (ofSource source (settings.withLimit none)).started.Unlimited := by
  obtain ⟨symbols, seedError, hsource, -⟩ := ofSource_eq source (settings.withLimit none)
  rw [hsource]
  exact ⟨rfl, by simp [started, ofTable], {}, .empty⟩

theorem quota_pos : 0 < quota limit := Nat.lt_of_lt_of_le Nat.one_pos (Nat.le_max_right _ _)

theorem started_size (source : List UInt8) (settings : Settings) (limit : UInt32) :
    (ofSource source settings).started.diagnostics.size < quota limit := by
  obtain ⟨symbols, seedError, hsource, -⟩ := ofSource_eq source settings
  rw [hsource]
  exact quota_pos

/-- What ends without a limit as `full` ends under one as `cut`: in the same state, or cut
off on the way to the state `q` that `full` was reported in. -/
def Truncates (limit : UInt32) (full cut : Parse) : Prop :=
  ∃ q : Parse, q.Begins full ∧ full.reported = q.diagnostics.size ∧
    (q.diagnostics.size < quota limit ∧ cut = full.withLimit limit ∨
      ∃ span r, Reaches limit span r q ∧ cut = r.fail (.tooMany span))

theorem Bounded.ended {x : ParseM Unit} (hx : Bounded limit x) {p : Parse} (hp : p.Unlimited)
    (hsize : p.diagnostics.size < quota limit) :
    Truncates limit (Parse.ended (x p)) (Parse.ended (x (p.withLimit limit))) := by
  obtain ⟨hq, -⟩ := hx.adds p hp
  have hcut {q : Parse} (hafter : after x p = q) (h : ∃ span r,
      x (p.withLimit limit) = .error (.tooMany span) r ∧ Reaches limit span r (after x p)) :
      ∃ span r, Reaches limit span r q ∧
        Parse.ended (x (p.withLimit limit)) = r.fail (.tooMany span) := by
    obtain ⟨span, r, hrun, hcut⟩ := h
    rw [hafter] at hcut
    exact ⟨span, r, hcut, by rw [hrun]; rfl⟩
  cases h : x p with
  | ok a q =>
    rw [after_of_ok h] at hq
    refine ⟨q, .refl q, hq.reported, ?_⟩
    refine (hx.run p hp hsize).imp ?_ (hcut (after_of_ok h))
    rw [after_of_ok h, h]
    exact fun ⟨hsize', hrun⟩ => ⟨hsize', by rw [hrun]; rfl⟩
  | error cause q =>
    have hcause (span : Span) : cause ≠ .tooMany span := by
      rintro rfl
      exact hx.cause p hp span q h
    rw [after_of_error h] at hq
    refine ⟨q, begins_fail q cause, hq.reported_fail cause, ?_⟩
    refine (hx.run p hp hsize).imp ?_ (hcut (after_of_error h))
    rw [after_of_error h, h]
    exact fun ⟨hsize', hrun⟩ => ⟨hsize', by rw [hrun]; exact fail_withLimit hcause⟩

theorem parse_truncates (source : List UInt8) (settings : Settings) (limit : UInt32) :
    Truncates limit (parse source (settings.withLimit none))
      (parse source (settings.withLimit (some limit))) := by
  have hlimited := ofSource_withLimit source settings limit
  have hstart := started_unlimited source settings
  have hsize := started_size source (settings.withLimit none) limit
  have hseed' : (ofSource source (settings.withLimit (some limit))).seedError =
      (ofSource source (settings.withLimit none)).seedError := by
    rw [hlimited]
    rfl
  cases hseed : (ofSource source (settings.withLimit none)).seedError with
  | some e =>
    rw [parse_of_unseeded hseed, parse_of_unseeded (hseed'.trans hseed), hlimited]
    refine ⟨_, begins_fail _ _, hstart.reported_fail _, .inl ⟨hsize, ?_⟩⟩
    exact fail_withLimit fun _ => nofun
  | none =>
    rw [parse_of_seeded hseed, parse_of_seeded (hseed'.trans hseed), hlimited]
    exact ((performance_routine (tokenize source)).bounded fun _ h => h.1).ended hstart hsize

end Whole

end Parse

/-- The parse `cut` failed at the diagnostic of `full` that reaches the limit, and what it
wrote down is the beginning of what `full` wrote down. -/
structure Parse.CutOff (limit : UInt32) (full cut : Parse) : Prop where
  phase : cut.phase = .failed
  diagnostics : ∃ last, full.diagnostics.toList[quota limit - 1]? = some last ∧
    cut.diagnostics.toList =
      full.diagnostics.toList.take (quota limit) ++
        [(Fatal.tooMany last.span).diagnostic (some limit)]
  symbols : cut.symbols.toList <+: full.symbols.toList
  graph : cut.graph.Begins full.graph

theorem Parse.Reaches.cutOff {limit : UInt32} {span : Span} {r q full : Parse}
    (h : Reaches limit span r q) (hfull : q.Begins full) :
    CutOff limit full (r.fail (.tooMany span)) := by
  have hbegins := h.begins.trans hfull
  have hlength : r.diagnostics.toList.length = quota limit := by
    rw [Array.length_toList, h.size]
  have htake : r.diagnostics.toList = full.diagnostics.toList.take (quota limit) := by
    rw [← hlength]
    exact List.prefix_iff_eq_take.1 hbegins.diagnostics
  obtain ⟨last, hlast, hspan⟩ := Option.map_eq_some_iff.1 h.last
  constructor
  case phase => rfl
  case symbols =>
    obtain ⟨more, hmore⟩ := hbegins.words
    have hsymbols : (r.fail (.tooMany span)).symbols = r.symbols := rfl
    rw [hsymbols, SymbolTable.toList, SymbolTable.toList, ← hmore, List.zipIdx_append,
      List.map_append]
    exact List.prefix_append ..
  case graph => exact hbegins.graph
  case diagnostics =>
    refine ⟨last, ?_, ?_⟩
    · rw [Array.back?_eq_getElem?, h.size, ← Array.getElem?_toList, htake] at hlast
      rwa [List.getElem?_take_of_lt (Nat.sub_lt quota_pos Nat.one_pos)] at hlast
    · rw [fail, Array.toList_push, h.settings, htake, hspan]

/-- A limit on diagnostics only cuts a parse off. A parse that reports less is the same
without the limit; any other one fails at the diagnostic that reaches the limit. -/
theorem parse_limited (source : List UInt8) (settings : Settings) (limit : UInt32) :
    ((parse source (settings.withLimit none)).reported < Parse.quota limit →
        parse source (settings.withLimit (some limit)) =
          (parse source (settings.withLimit none)).withLimit limit) ∧
      (Parse.quota limit ≤ (parse source (settings.withLimit none)).reported →
        Parse.CutOff limit (parse source (settings.withLimit none))
          (parse source (settings.withLimit (some limit)))) := by
  obtain ⟨q, hbegins, hreported, ⟨hsize, hsame⟩ | ⟨span, r, hreaches, hcut⟩⟩ :=
    Parse.parse_truncates source settings limit
  · rw [hreported]
    exact ⟨fun _ => hsame, fun hle => absurd hle (Nat.not_le.2 hsize)⟩
  · have hle := hreaches.begins.size
    rw [hreaches.size] at hle
    rw [hreported, hcut]
    exact ⟨fun hlt => absurd hlt (Nat.not_lt.2 hle), fun _ => hreaches.cutOff hbegins⟩

end LabelGraph
