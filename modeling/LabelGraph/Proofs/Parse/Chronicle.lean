import LabelGraph.Proofs.Parse.Sequence
import LabelGraph.Proofs.Parse.Verdict
import LabelGraph.Proofs.Store.Keywords

/-!
The order of what a parse reports. First come the reports of the lines, in the order of their
places, then those of the labels that are declared nowhere, again in the order of their places,
and at last the cause that ends the parse, if there is one. All of them start with a token.
-/

namespace LabelGraph

open Parse

def Diagnostic.start (d : Diagnostic) : Nat := d.span.start.offset

namespace Action

variable {a : Action} {d : Diagnostic}

theorem Reports.span_mem (h : a.Reports d) : d.span ∈ a.spans := by
  cases h with
  | label => exact List.mem_cons_of_mem _ List.mem_cons_self
  | reject =>
    rw [unexpected_span]
    exact List.mem_cons_self
  | _ => exact List.mem_cons_self

/-- Malformed input is reported where a token is rejected. -/
theorem Reports.lexical (h : a.Reports d) (hcode : d.code = Code.lexical) :
    ∃ t wanted, a = .reject t wanted ∧ d = unexpected t wanted ∧ t.kind = .error := by
  cases h with
  | @reject t wanted =>
    refine ⟨t, wanted, rfl, rfl, ?_⟩
    by_contra hkind
    rw [unexpected, if_neg hkind] at hcode
    exact absurd hcode (by decide : Code.unexpected ≠ Code.lexical)
  | label => exact absurd hcode (by decide : Code.duplicate ≠ Code.lexical)
  | external => exact absurd hcode (by decide : Code.duplicate ≠ Code.lexical)
  | outside => exact absurd hcode (by decide : Code.unexpected ≠ Code.lexical)
  | deep => exact absurd hcode (by decide : Code.unbalanced ≠ Code.lexical)
  | unmatched => exact absurd hcode (by decide : Code.unbalanced ≠ Code.lexical)

def reference? : Action → Option Span
  | .refer name _ => some name.span
  | _ => none

theorem eq_refer {s : Span} (h : a.reference? = some s) :
    ∃ name d, a = .refer name d ∧ name.span = s := by
  cases a with
  | refer name d => exact ⟨name, d, rfl, Option.some.inj h⟩
  | _ => cases h

end Action

/-! The lines. -/

namespace Parse

section Lines

variable {events : List Event}

/-- What the lines report comes in the order of their actions. -/
theorem playAll_reports (hturn : (performed events).Pairwise Action.InTurn)
    (hspans : ∀ a ∈ performed events, ∀ s ∈ a.spans, s.start = a.first.span.start) (p : Parse) :
    ∃ read, (after (playAll events) p).diagnostics.toList = p.diagnostics.toList ++ read ∧
      (read.Pairwise fun d e => d.start ≤ e.start) ∧
      ∀ d ∈ read, ∃ a ∈ performed events, a.Reports d := by
  have hstart {a : Action} {d : Diagnostic} (ha : a ∈ performed events) (h : a.Reports d) :
      d.start = a.first.start :=
    congrArg Position.offset (hspans a ha _ h.span_mem)
  induction events generalizing p with
  | nil => exact ⟨[], by simp [playAll, after, pure, EStateM.pure], .nil, by simp⟩
  | cons e events ih =>
    cases e with
    | consume t => exact ih hturn hspans { p with previous := t.span } hstart
    | nextLine rest => exact ih hturn hspans { p with rest, phase := .parsing } hstart
    | perform a =>
      have hmem : a ∈ performed (.perform a :: events) := List.mem_cons_self
      obtain ⟨hfirst, hmore⟩ := List.pairwise_cons.1 hturn
      obtain ⟨here, hhere, hreports⟩ := ((act_routine a).changes p).reports
      have hsame : here.Pairwise fun d e => d.start ≤ e.start := by
        refine List.pairwise_of_forall_mem_list fun d hd e he => ?_
        rw [hstart hmem (hreports d hd), hstart hmem (hreports e he)]
      have hwhole : ∀ d ∈ here, ∃ b ∈ performed (.perform a :: events), b.Reports d :=
        fun d hd => ⟨a, hmem, hreports d hd⟩
      rw [playAll_cons]
      -- An action that ends the parse may have reported something before.
      cases hplay : act a p with
      | error cause q =>
        rw [after_of_error hplay] at hhere
        rw [after_bind_of_error (x := play (.perform a)) hplay]
        exact ⟨here, hhere, hsame, hwhole⟩
      | ok _ q =>
        rw [after_of_ok hplay] at hhere
        rw [after_bind_of_ok (x := play (.perform a)) hplay]
        obtain ⟨rest, hrest, hpairwise, hall⟩ := ih hmore
          (fun b hb => hspans b (List.mem_cons_of_mem a hb)) q
          fun hb => hstart (List.mem_cons_of_mem a hb)
        refine ⟨here ++ rest, ?_, List.pairwise_append.2 ⟨hsame, hpairwise, ?_⟩, ?_⟩
        · rw [hrest, hhere, List.append_assoc]
        · intro d hd e he
          obtain ⟨b, hb, he⟩ := hall e he
          rw [hstart hmem (hreports d hd), hstart (List.mem_cons_of_mem a hb) he]
          exact hfirst b hb
        · intro d hd
          rcases List.mem_append.1 hd with hd | hd
          · exact hwhole d hd
          · obtain ⟨b, hb, hd⟩ := hall d hd
            exact ⟨b, List.mem_cons_of_mem a hb, hd⟩

end Lines

section Course

variable {p q : Parse} {m m' : Ledger} {a : Action} {events : List Event}

theorem Effect.waits (h : Effect p m a q m') :
    ∃ more, q.pending.toList = p.pending.toList ++ more ∧
      (more.map Reference.span).Sublist a.reference?.toList := by
  cases h with
  | @queued name d s t scope =>
    exact ⟨[⟨scope, s, d, name.span⟩], Array.toList_push, List.Sublist.refl _⟩
  | _ => exact ⟨[], (List.append_nil _).symm, List.nil_sublist _⟩

theorem Effect.opens (h : Effect p m a q m') :
    ∀ b ∈ q.blocks, b ∈ p.blocks ∨ ∃ brace, a = .openBlock brace ∧ b.span = brace.span := by
  cases h with
  | @openBlock brace =>
    intro b hb
    rcases Array.mem_push.1 hb with hb | rfl
    · exact .inl hb
    · exact .inr ⟨brace, rfl, rfl⟩
  | closeBlock hback =>
    intro b hb
    rw [← Array.mem_toList_iff, Array.toList_pop] at hb
    exact .inl (Array.mem_toList_iff.1 ((List.dropLast_sublist _).subset hb))
  | _ => exact fun b hb => .inl hb

/-- References wait in the order in which they are made. -/
theorem Course.waits (h : Course events p m q m') :
    ∃ more, q.pending.toList = p.pending.toList ++ more ∧
      (more.map Reference.span).Sublist ((performed events).filterMap Action.reference?) := by
  induction h with
  | nil => exact ⟨[], (List.append_nil _).symm, List.nil_sublist _⟩
  | @act a events p q r m m' m'' heffect hsound hrest ih =>
    obtain ⟨here, hhere, hspans⟩ := heffect.waits
    obtain ⟨more, hmore, hall⟩ := ih
    refine ⟨here ++ more, by rw [hmore, hhere, List.append_assoc], ?_⟩
    have hsplit : (performed (.perform a :: events)).filterMap Action.reference? =
        a.reference?.toList ++ (performed events).filterMap Action.reference? := by
      change (a :: performed events).filterMap Action.reference? = _
      rw [List.filterMap_cons]
      cases a.reference? <;> rfl
    rw [hsplit, List.map_append]
    exact hspans.append hall
  | pass he _ ih =>
    rw [performed_of_idle he]
    exact ih

/-- A block is open at the brace that opened it. -/
theorem Course.opens (h : Course events p m q m') :
    ∀ b ∈ q.blocks, b ∈ p.blocks ∨ ∃ brace, .perform (.openBlock brace) ∈ events ∧
      b.span = brace.span := by
  induction h with
  | nil => exact fun b hb => .inl hb
  | act heffect _ _ ih =>
    intro b hb
    rcases ih b hb with hb | ⟨brace, hmem, hspan⟩
    · rcases heffect.opens b hb with hb | ⟨brace, rfl, hspan⟩
      · exact .inl hb
      · exact .inr ⟨brace, List.mem_cons_self, hspan⟩
    · exact .inr ⟨brace, List.mem_cons_of_mem _ hmem, hspan⟩
  | pass _ _ ih =>
    intro b hb
    rcases ih b hb with hb | ⟨brace, hmem, hspan⟩
    · exact .inl hb
    · exact .inr ⟨brace, List.mem_cons_of_mem _ hmem, hspan⟩

end Course

/-! The waiting references. -/

/-- A waiting reference is linked in silence, or reported at its place. -/
theorem resolve_reports (r : Reference) (p : Parse) :
    ∃ more, (after (resolve r) p).diagnostics.toList = p.diagnostics.toList ++ more ∧
      (more.map Diagnostic.span).Sublist [r.span] ∧ ∀ d ∈ more, d.code = Code.unresolved := by
  cases hlabel : p.labels[r.name]? with
  | some target =>
    have hresolve : resolve r p = link r.scope target r.name r.direction r.span p := by
      simp [resolve, hlabel]
    have hsame : (after (link r.scope target r.name r.direction r.span) p).diagnostics =
        p.diagnostics := by
      simp only [after, link, onGraph]
      cases discard (Graph.addEdge r.scope target r.name r.direction r.span) p.graph <;> rfl
    rw [after, hresolve, ← after, hsame]
    exact ⟨[], (List.append_nil _).symm, List.nil_sublist _, List.forall_mem_nil _⟩
  | none =>
    have hresolve : resolve r p = report (p.undefinedLabel r) p := by
      simp only [resolve, bind_get, hlabel]
      rfl
    refine ⟨[p.undefinedLabel r], ?_, List.Sublist.refl _, by simp [undefinedLabel]⟩
    rw [after, hresolve, ← after, after_report, Array.toList_push]

theorem resolveAll_reports (rs : List Reference) (p : Parse) :
    ∃ more, (after (rs.forM resolve) p).diagnostics.toList = p.diagnostics.toList ++ more ∧
      (more.map Diagnostic.span).Sublist (rs.map Reference.span) ∧
      ∀ d ∈ more, d.code = Code.unresolved := by
  induction rs generalizing p with
  | nil => exact ⟨[], (List.append_nil _).symm, List.nil_sublist _, by simp⟩
  | cons r rs ih =>
    obtain ⟨here, hhere, hspan, hcode⟩ := resolve_reports r p
    change ∃ more, (after (resolve r >>= fun _ => rs.forM resolve) p).diagnostics.toList = _ ∧ _
    cases hresolve : resolve r p with
    | error cause q =>
      rw [after_of_error hresolve] at hhere
      rw [after_bind_of_error hresolve]
      exact ⟨here, hhere, hspan.trans (by simp), hcode⟩
    | ok _ q =>
      rw [after_of_ok hresolve] at hhere
      rw [after_bind_of_ok hresolve]
      obtain ⟨more, hmore, hspans, hcodes⟩ := ih q
      refine ⟨here ++ more, by rw [hmore, hhere, List.append_assoc], ?_, ?_⟩
      · rw [List.map_append]
        exact hspan.append hspans
      · exact List.forall_mem_append.2 ⟨hcode, hcodes⟩

/-! The whole text. -/

structure Reading (source : List UInt8) (read : List Diagnostic) : Prop where
  ordered : read.Pairwise fun d e => d.start ≤ e.start
  reports : ∀ d ∈ read, ∃ a, .perform a ∈ (script .item (tokenize source)).1 ∧ a.Reports d

def AreReferences (source : List UInt8) (spans : List Span) : Prop :=
  spans.Sublist ((performed (script .item (tokenize source)).1).filterMap Action.reference?)

inductive Ending (source : List UInt8) : List Diagnostic → Prop where
  | none : Ending source []
  | cause {cause : Fatal} (limit : Option UInt32) (h : cause.span.Sits source) :
    Ending source [cause.diagnostic limit]

/-- The reports of the lines, of the waiting references and of the end. -/
def Chronicles (source : List UInt8) (reports : List Diagnostic) : Prop :=
  ∃ read pending fatal, reports = read ++ pending ++ fatal ∧ Reading source read ∧
    AreReferences source (pending.map Diagnostic.span) ∧
    (∀ d ∈ pending, d.code = Code.unresolved) ∧ Ending source fatal

section Source

variable {source : List UInt8}

theorem AreReferences.ordered {spans : List Span} (h : AreReferences source spans) :
    spans.Pairwise fun s t => s.start.offset < t.start.offset := by
  refine List.Pairwise.sublist h (List.pairwise_filterMap.2 ?_)
  refine (script_references source).imp fun {a b} hstart s hs t ht => ?_
  obtain ⟨name, d, rfl, rfl⟩ := Action.eq_refer hs
  obtain ⟨name', d', rfl, rfl⟩ := Action.eq_refer ht
  exact hstart trivial trivial

theorem AreReferences.sits {spans : List Span} (h : AreReferences source spans) :
    ∀ s ∈ spans, s.Sits source := by
  intro s hs
  obtain ⟨a, ha, hreference⟩ := List.mem_filterMap.1 (h.subset hs)
  obtain ⟨name, d, rfl, rfl⟩ := Action.eq_refer hreference
  exact (spans_sit (mem_performed.1 ha) _ List.mem_cons_self).1

theorem fail_chronicles {p : Parse} {cause : Fatal} {read pending : List Diagnostic}
    (hlist : p.diagnostics.toList = read ++ pending) (hread : Reading source read)
    (hpending : AreReferences source (pending.map Diagnostic.span))
    (hcode : ∀ d ∈ pending, d.code = Code.unresolved) (hcause : cause.span.Sits source) :
    Chronicles source (p.fail cause).diagnostics.toList := by
  refine ⟨read, pending, [cause.diagnostic p.settings.maxDiagnostics], ?_, hread, hpending, hcode,
    .cause _ hcause⟩
  rw [fail, Array.toList_push, hlist]

/-- What waits when the lines are read is reported in the order of the lines, and then the end
of the parse. -/
theorem finish_chronicles {p : Parse} {m : Ledger} (hp : p.Sound m)
    (hread : Reading source p.diagnostics.toList)
    (hwaiting : AreReferences source (p.pending.toList.map Reference.span))
    (hopen : ∀ b ∈ p.blocks, b.span.Sits source) :
    Chronicles source (ended (finish p)).diagnostics.toList := by
  obtain ⟨pending, hlist, hspans, hcode⟩ :=
    resolveAll_reports p.pending.toList { p with pending := #[] }
  have hpending : AreReferences source (pending.map Diagnostic.span) := hspans.trans hwaiting
  cases h : resolvePending p with
  | error cause q =>
    have hfinish : finish p = .error cause q := bind_of_error h
    have hroutine : Routine
        { Footprint.closing with
          causes := fun cause => ∃ r ∈ p.pending.toList, cause.span = r.span }
        (p.pending.toList.forM resolve) :=
      .forM fun r hr => (resolve_routine r).mono
        { r.within_closing with causes := fun _ h => ⟨r, hr, h⟩ }
    rw [resolvePending_eq] at h
    rw [after_of_error h] at hlist
    obtain ⟨r, hr, hcause⟩ := hroutine.cause_of_error h
    rw [hfinish]
    refine fail_chronicles hlist hread hpending hcode ?_
    rw [hcause]
    exact hwaiting.sits _ (List.mem_map_of_mem hr)
  | ok _ q =>
    have hblocks : q.blocks = p.blocks := by
      obtain ⟨m', graph, diagnostics, rfl, -⟩ := resolvePending_ok hp h
      rfl
    rw [ended_finish h]
    rw [resolvePending_eq] at h
    rw [after_of_ok h] at hlist
    cases hback : q.blocks.back? with
    | some block =>
      have hblock : block ∈ p.blocks := hblocks ▸ Array.mem_of_back? hback
      exact fail_chronicles hlist hread hpending hcode (hopen block hblock)
    | none =>
      exact ⟨_, pending, [], by rw [List.append_nil]; exact hlist, hread, hpending, hcode, .none⟩

/-- What a parse reports from a state in which nothing is reported, open or waiting. -/
theorem performance_chronicles {p : Parse} {m : Ledger} (hp : p.Sound m)
    (hdiagnostics : p.diagnostics = #[]) (hpending : p.pending = #[]) (hblocks : p.blocks = #[]) :
    Chronicles source (ended (performance (tokenize source) p)).diagnostics.toList := by
  have hordered : (Place.item.held ++ tokenize source).Pairwise Token.Before :=
    tokenize_ordered source
  obtain ⟨read, hlist, hascends, hreports⟩ := playAll_reports (script_inTurn hordered)
    (fun a ha s hs => (spans_sit (mem_performed.1 ha) s hs).2) p
  rw [hdiagnostics, List.nil_append] at hlist
  have hread : Reading source read := by
    refine ⟨hascends, fun d hd => ?_⟩
    obtain ⟨a, ha, hreports⟩ := hreports d hd
    exact ⟨a, mem_performed.1 ha, hreports⟩
  -- What ends the parse among the lines ends it before anything that waits is looked at.
  have hnone : AreReferences source (([] : List Diagnostic).map Diagnostic.span) :=
    List.nil_sublist _
  have hstopped {q : Parse} {cause : Fatal} (hlist : q.diagnostics.toList = read)
      (hcause : cause.span.Sits source) : Chronicles source (q.fail cause).diagnostics.toList :=
    fail_chronicles (by rw [hlist, List.append_nil]) hread hnone
      (List.forall_mem_nil _) hcause
  cases hplay : playAll (script .item (tokenize source)).1 p with
  | error cause q =>
    have hroutine : Routine
        { Footprint.text with
          causes := fun cause => ∃ a, .perform a ∈ (script .item (tokenize source)).1 ∧
            cause.span ∈ a.spans }
        (playAll (script .item (tokenize source)).1) :=
      playAll_routine trivial (fun _ _ => trivial) fun a ha =>
        { a.within_line.trans Footprint.line_within with causes := fun _ h => ⟨a, ha, h⟩ }
    obtain ⟨a, ha, hat⟩ := hroutine.cause_of_error hplay
    have hperformance : performance (tokenize source) p = .error cause q := bind_of_error hplay
    rw [hperformance]
    rw [after_of_error hplay] at hlist
    exact hstopped hlist (spans_sit ha _ hat).1
  | ok _ played =>
    obtain ⟨m', hplayed, hcourse⟩ := playAll_ok hp hplay
    have hperformance : performance (tokenize source) p =
        close (script .item (tokenize source)).2 played := bind_of_ok hplay
    rw [hperformance]
    rw [after_of_ok hplay] at hlist
    cases hstop : (script .item (tokenize source)).2 with
    | line rest => exact absurd hstop (script_ne_line _ _ _)
    | corrupt span =>
      obtain ⟨t, ht, -, rfl⟩ := corrupt_of_stop hstop
      exact hstopped hlist (Token.sits ht)
    | text =>
      obtain ⟨more, hmore, hreferences⟩ := hcourse.waits
      rw [hpending, List.nil_append] at hmore
      refine finish_chronicles hplayed (hlist ▸ hread) (hmore ▸ hreferences) fun b hb => ?_
      rcases hcourse.opens b hb with hb | ⟨brace, hbrace, hspan⟩
      · rw [hblocks] at hb
        exact absurd hb (Array.not_mem_empty b)
      · rw [hspan]
        exact (spans_sit hbrace _ List.mem_cons_self).1

/-! Bytes outside UTF-8. -/

/-- Tokens of one text do not overlap. -/
theorem token_of_overlap {t u : Token} (ht : t ∈ tokenize source) (hu : u ∈ tokenize source)
    (hfilled : t.start < t.stop) (hin : u.start ≤ t.start ∧ t.start < u.stop) : t = u := by
  have hsymm : Std.Symm fun t u : Token => t.stop ≤ u.start ∨ u.stop ≤ t.start :=
    ⟨fun _ _ => Or.symm⟩
  have happart : (tokenize source).Pairwise fun t u => t.stop ≤ u.start ∨ u.stop ≤ t.start :=
    (covers_tokenize source).apart.imp .inl
  by_contra hne
  have := happart.forall ht hu hne
  omega

/-- The diagnostic is about the bytes of its span, all of which are outside UTF-8, as are none
beside them. It spells them one by one. -/
structure SpellsStrays (source : List UInt8) (d : Diagnostic) : Prop where
  run : Utf8.StrayRun source d.span.start.offset d.span.stop.offset
  found : d.details.found = some (String.ofList
    ((slice source d.span.start.offset d.span.stop.offset).flatMap spellByte))

theorem Reading.spells {read : List Diagnostic} {d : Diagnostic} (h : Reading source read)
    (hd : d ∈ read) (hcode : d.code = Code.lexical) (hstray : Utf8.Stray source d.start) :
    SpellsStrays source d := by
  obtain ⟨a, ha, hreports⟩ := h.reports d hd
  obtain ⟨t, wanted, rfl, rfl, hkind⟩ := hreports.lexical hcode
  have ht : t ∈ tokenize source := script_tokens ha List.mem_cons_self
  have hspan : (unexpected t wanted).span = t.span := unexpected_span t wanted
  rw [Diagnostic.start, hspan] at hstray
  have htiles : Tiles True 0 (Utf8.decode source) (tokenize source) :=
    Scanner.tokens_tiled (Scanner.ofBytes source) (.inl rfl)
  obtain ⟨u, hu, hstray', hle, hlt⟩ := htiles.stray_iff_mem.1 hstray
  have hfilled := (covers_tokenize source).filled t ht (by rw [hkind]; decide)
  obtain rfl := token_of_overlap ht hu hfilled ⟨hle, hlt⟩
  refine ⟨?_, ?_⟩
  · rw [hspan]
    exact ((covers_tokenize source).strays _ _).2 ⟨t, ht, hstray', rfl, rfl⟩
  · rw [hspan, unexpected, if_pos hkind]
    rw [hstray'.2, Token.stray_bytes ht hstray']
    rfl

theorem Reading.sits {read : List Diagnostic} (h : Reading source read) :
    ∀ d ∈ read, d.span.Sits source := by
  intro d hd
  obtain ⟨a, ha, hreports⟩ := h.reports d hd
  exact (spans_sit ha _ hreports.span_mem).1

theorem Ending.single {fatal : List Diagnostic} (h : Ending source fatal) :
    fatal.length ≤ 1 ∧ ∀ d ∈ fatal, d.code ∈ Code.fatal ∧ d.span.Sits source := by
  cases h with
  | none => exact ⟨Nat.zero_le _, List.forall_mem_nil _⟩
  | @cause cause limit h =>
    refine ⟨Nat.le_refl _, List.forall_mem_singleton.2 ⟨cause.code_fatal limit, ?_⟩⟩
    rwa [Fatal.diagnostic_span]

theorem Chronicles.sits {reports : List Diagnostic} (h : Chronicles source reports) :
    ∀ d ∈ reports, d.span.Sits source := by
  obtain ⟨read, pending, fatal, rfl, hread, hpending, -, hfatal⟩ := h
  refine List.forall_mem_append.2 ⟨List.forall_mem_append.2 ⟨hread.sits, fun d hd => ?_⟩, ?_⟩
  · exact hpending.sits _ (List.mem_map_of_mem hd)
  · exact fun d hd => (hfatal.single.2 d hd).2

theorem Chronicles.spells {reports : List Diagnostic} {d : Diagnostic}
    (h : Chronicles source reports) (hd : d ∈ reports) (hcode : d.code = Code.lexical)
    (hstray : Utf8.Stray source d.start) : SpellsStrays source d := by
  obtain ⟨read, pending, fatal, rfl, hread, -, hpending, hfatal⟩ := h
  rcases List.mem_append.1 hd with hd | hd
  · rcases List.mem_append.1 hd with hd | hd
    · exact hread.spells hd hcode hstray
    · exact absurd ((hpending d hd).symm.trans hcode) (by decide)
  · have hmem := (hfatal.single.2 d hd).1
    rw [hcode] at hmem
    exact absurd hmem (by decide)

end Source

theorem parse_chronicles {source : List UInt8} {settings : Settings} {t : SymbolTable}
    (hseed : SymbolTable.seeded settings.reserved = .ok t) :
    Chronicles source (parse source settings).diagnostics.toList := by
  have hsound := started_sound source settings
  rw [ofSource_of_seeded hseed] at hsound
  rw [parse_of_table hseed]
  exact performance_chronicles hsound rfl rfl rfl

end Parse

/-- The diagnostics of a parse, if the reserved words fit into a table, come in three parts:
first those of the lines, in the order of their places, then those of the labels that are declared
nowhere, in the strict order of their places, and then at most one that ended the parse. Each
of them is at a span in the text that starts with a token, and one about bytes outside UTF-8
spells the bytes of its span. -/
theorem parse_chronicle (source : List UInt8) (settings : Settings)
    (hseed : ∃ t, SymbolTable.seeded settings.reserved = .ok t) :
    let diagnostics := (parse source settings).diagnostics.toList
    (∃ read pending fatal, diagnostics = read ++ pending ++ fatal ∧
      (∀ d ∈ read, d.code ∈ Code.reports ∧ d.code ≠ Code.unresolved) ∧
      (read.Pairwise fun d e => d.start ≤ e.start) ∧
      (∀ d ∈ pending, d.code = Code.unresolved) ∧
      (pending.Pairwise fun d e => d.start < e.start) ∧
      fatal.length ≤ 1 ∧ ∀ d ∈ fatal, d.code ∈ Code.fatal) ∧
    ∀ d ∈ diagnostics, d.span.Sits source ∧
      (d.code = Code.lexical → Utf8.Stray source d.start → SpellsStrays source d) := by
  intro diagnostics
  obtain ⟨t, ht⟩ := hseed
  have hchronicles : Chronicles source diagnostics := parse_chronicles ht
  refine ⟨?_, fun d hd => ⟨hchronicles.sits d hd, hchronicles.spells hd⟩⟩
  obtain ⟨read, pending, fatal, hlist, hread, hpending, hcode, hfatal⟩ := hchronicles
  refine ⟨read, pending, fatal, hlist, fun d hd => ?_, hread.ordered, hcode,
    (List.pairwise_map.1 hpending.ordered).imp id, hfatal.single.1,
    fun d hd => (hfatal.single.2 d hd).1⟩
  obtain ⟨a, -, hreports⟩ := hread.reports d hd
  exact hreports.code

/-- A brace too many, bytes outside UTF-8, two labels that are declared nowhere and a block that
is left open. -/
theorem parse_chronicle_all :
    let source := "a: jmp b, c\n\x7d\n".toUTF8.toList ++ 0xC3 :: 0xFF :: "\n\x7b".toUTF8.toList
    let diagnostics := (parse source {}).diagnostics.toList
    (∃ t, SymbolTable.seeded ({} : Settings).reserved = .ok t) ∧
    (∃ read pending fatal, diagnostics = read ++ pending ++ fatal ∧
      (∀ d ∈ read, d.code ∈ Code.reports ∧ d.code ≠ Code.unresolved) ∧
      (read.Pairwise fun d e => d.start ≤ e.start) ∧
      (∀ d ∈ pending, d.code = Code.unresolved) ∧
      (pending.Pairwise fun d e => d.start < e.start) ∧
      fatal.length ≤ 1 ∧ ∀ d ∈ fatal, d.code ∈ Code.fatal) ∧
    ∀ d ∈ diagnostics, d.span.Sits source ∧
      (d.code = Code.lexical → Utf8.Stray source d.start → SpellsStrays source d) := by
  intro source diagnostics
  have hseed := SymbolTable.seeded_default
  exact ⟨hseed, parse_chronicle source {} hseed⟩

end LabelGraph
