import LabelGraph.Proofs.Parse.Course

/-!
How a parse ends. Either the script of the whole text is played and every waiting
reference is resolved, and then the parse succeeds or finds a block left open, or a
limit or a corrupt token ends it before.
-/

namespace LabelGraph

theorem Settings.reserved_size (s : Settings) : s.reserved.size ≤ 22 + s.keywords.length :=
  Nat.le_trans (Keywords.insertAll_size _ _)
    (Nat.add_le_add_right (Keywords.insertAll_size .empty Keywords.builtIn) _)

/-- What ends a parse for lack of room says so. -/
theorem Fatal.code_storage {e : StoreError} (he : e.isCapacity) (limit : Option UInt32)
    (span : Span) : (Fatal.diagnostic limit (.storage e span)).code = Code.capacity := by
  rw [diagnostic, if_pos he]

namespace Parse

def FailedWith (p : Parse) (code : String) : Prop :=
  p.phase = .failed ∧ p.diagnostics.back?.map Diagnostic.code = some code

theorem fail_failedWith {p : Parse} {cause : Fatal} {code : String} :
    (p.fail cause).FailedWith code ↔
      (cause.diagnostic p.settings.maxDiagnostics).code = code := by
  simp [FailedWith, fail]

/-! The start of a parse. -/

section Start

variable (source : List UInt8) (settings : Settings)

theorem ofSource_eq : ∃ symbols seedError,
    ofSource source settings = { ofTable source settings symbols with seedError } ∧
      symbols.Valid ∧ symbols.size ≤ settings.reserved.size ∧
      ∀ e, seedError = some e → e.isCapacity ∧ indexCapacity < settings.reserved.size := by
  unfold ofSource
  split
  · next symbols hseeded =>
    exact ⟨symbols, none, rfl, SymbolTable.seeded_valid hseeded, SymbolTable.seeded_size hseeded,
      by simp⟩
  · next e hseeded =>
    refine ⟨.empty, some e, rfl, SymbolTable.empty_valid, Nat.zero_le _, ?_⟩
    intro e' he'
    cases he'
    obtain ⟨rfl, hfull⟩ := SymbolTable.seeded_error hseeded
    exact ⟨rfl, hfull⟩

theorem started_sound : (ofSource source settings).started.Sound {} := by
  obtain ⟨symbols, seedError, hsource, hvalid, -⟩ := ofSource_eq source settings
  rw [hsource]
  constructor
  case dense => exact .empty
  case symbols => exact hvalid
  all_goals simp [started, ofTable]

end Start

/-! The end of a parse. -/

/-- The whole text is played, and what waited then is resolved. -/
structure Completes (tokens : List Token) (p played resolved : Parse) : Prop where
  text : (script .item tokens).2 = .text
  play : playAll (script .item tokens).1 p = .ok () played
  resolve : resolvePending played = .ok () resolved

/-- With everything resolved a parse succeeds, unless a block was left open. -/
theorem ended_finish {played resolved : Parse} (h : resolvePending played = .ok () resolved) :
    ended (finish played) =
      match resolved.blocks.back? with
      | some block => resolved.fail (.unclosed block.span)
      | none => { resolved with phase := .succeeded } := by
  have hfinish : finish played = (do
      match (← get).blocks.back? with
      | some block => throw (.unclosed block.span)
      | none => modify fun p => { p with phase := .succeeded } : ParseM Unit) resolved :=
    bind_of_ok h
  rw [hfinish, bind_get]
  cases resolved.blocks.back? <;> rfl

theorem Completes.ended {tokens : List Token} {p played resolved : Parse}
    (h : Completes tokens p played resolved) :
    ended (performance tokens p) =
      match resolved.blocks.back? with
      | some block => resolved.fail (.unclosed block.span)
      | none => { resolved with phase := .succeeded } := by
  have hperformance : performance tokens p = close (script .item tokens).2 played :=
    bind_of_ok h.play
  rw [hperformance, h.text, close, ended_finish h.resolve]

/-- Why a text is not played to its end, or not resolved. -/
def Interrupts (tokens : List Token) (p : Parse) (m : Ledger) (cause : Fatal) : Prop :=
  p.AtLimit m (5 * (script .item tokens).1.length + p.pending.size) cause ∨
    ∃ span, cause = .corrupt span ∧ ∃ t ∈ tokens, t.kind = .corrupt

theorem performance_cases {p : Parse} {m : Ledger} (hp : p.Sound m) (tokens : List Token) :
    (∃ played resolved, Completes tokens p played resolved ∧
      (ended (performance tokens p) = { resolved with phase := .succeeded } ∨
        ∃ span, ended (performance tokens p) = resolved.fail (.unclosed span))) ∨
    ∃ (q : Parse) (cause : Fatal), ended (performance tokens p) = q.fail cause ∧
      Interrupts tokens p m cause := by
  cases hplay : playAll (script .item tokens).1 p with
  | error cause q =>
    have hperformance : performance tokens p = .error cause q := bind_of_error hplay
    have hlimit := (playAll_error hp hplay).mono
      (by omega : _ ≤ 5 * (script .item tokens).1.length + p.pending.size)
    rw [hperformance]
    exact .inr ⟨q, cause, rfl, .inl hlimit⟩
  | ok _ played =>
    obtain ⟨m', hplayed, hcourse⟩ := playAll_ok hp hplay
    have hperformance : performance tokens p = close (script .item tokens).2 played :=
      bind_of_ok hplay
    have hsettings := (hcourse.grows hp).settings
    rw [hperformance]
    cases hstop : (script .item tokens).2 with
    | line rest => exact absurd hstop (script_ne_line _ _ _)
    | corrupt span =>
      obtain ⟨t, ht, hkind, -⟩ := corrupt_of_stop hstop
      exact .inr ⟨played, .corrupt span, rfl, .inr ⟨span, rfl, t, ht, hkind⟩⟩
    | text =>
      cases hresolve : resolvePending played with
      | error cause q =>
        have hfinish : finish played = .error cause q := bind_of_error hresolve
        have hpending := hcourse.pending_size
        have hlimit : p.AtLimit m (5 * (script .item tokens).1.length + p.pending.size) cause :=
          (resolvePending_error hplayed hresolve).of_room hsettings fun hroom =>
            hcourse.room (hroom.mono (by omega))
        rw [close, hfinish]
        exact .inr ⟨q, cause, rfl, .inl hlimit⟩
      | ok _ resolved =>
        have hcompletes : Completes tokens p played resolved := ⟨hstop, hplay, hresolve⟩
        refine .inl ⟨played, resolved, hcompletes, ?_⟩
        rw [← hstop, ← hperformance, hcompletes.ended]
        cases resolved.blocks.back? with
        | some block => exact .inr ⟨block.span, rfl⟩
        | none => exact .inl rfl

section Whole

variable {source : List UInt8} {settings : Settings}

/-- The parse reads its whole text and resolves what waited then. -/
def Finishes (source : List UInt8) (settings : Settings) (played resolved : Parse) : Prop :=
  Completes (tokenize source) (ofSource source settings).started played resolved ∧
    (parse source settings = { resolved with phase := .succeeded } ∨
      ∃ span, parse source settings = resolved.fail (.unclosed span))

/-- A parse whose reserved words fit into a table plays its tokens. -/
theorem parse_of_seeded (hseed : (ofSource source settings).seedError = none) :
    parse source settings =
      ended (performance (tokenize source) (ofSource source settings).started) := by
  obtain ⟨symbols, seedError, hsource, -⟩ := ofSource_eq source settings
  have hphase : (ofSource source settings).phase.isTerminal = false := by
    rw [hsource]
    rfl
  rw [parse, run_eq hphase hseed, hsource]
  rfl

theorem ofSource_of_seeded {t : SymbolTable} (hseed : SymbolTable.seeded settings.reserved = .ok t)
    (source : List UInt8) : ofSource source settings = ofTable source settings t := by
  rw [ofSource, hseed]

theorem parse_of_table {t : SymbolTable} (hseed : SymbolTable.seeded settings.reserved = .ok t)
    (source : List UInt8) :
    parse source settings =
      ended (performance (tokenize source) (ofTable source settings t).started) := by
  have hsource := ofSource_of_seeded hseed source
  rw [parse_of_seeded (by rw [hsource]; rfl), hsource]

theorem parse_of_unseeded {e : StoreError}
    (hseed : (ofSource source settings).seedError = some e) :
    parse source settings = (ofSource source settings).started.fail (.storage e .zero) := by
  obtain ⟨symbols, seedError, hsource, -⟩ := ofSource_eq source settings
  have hphase : (ofSource source settings).phase.isTerminal = false := by
    rw [hsource]
    rfl
  exact run_of_error hphase (readStep_unseeded hseed)

theorem parse_cases (source : List UInt8) (settings : Settings) :
    (∃ played resolved, Finishes source settings played resolved) ∨
    ∃ (q : Parse) (cause : Fatal), parse source settings = q.fail cause ∧
      (Interrupts (tokenize source) (ofSource source settings).started {} cause ∨
        ∃ e, cause = .storage e .zero ∧ e.isCapacity ∧
          indexCapacity < settings.reserved.size) := by
  obtain ⟨symbols, seedError, hsource, -, -, hcapacity⟩ := ofSource_eq source settings
  cases hseed : (ofSource source settings).seedError with
  | some e =>
    have hparse := parse_of_unseeded hseed
    rw [hsource] at hseed
    exact .inr ⟨_, _, hparse, .inr ⟨e, rfl, hcapacity e hseed⟩⟩
  | none =>
    have hparse := parse_of_seeded hseed
    rcases performance_cases (started_sound source settings) (tokenize source) with
      ⟨played, resolved, hcompletes, hend⟩ | ⟨q, cause, hfail, hinterrupts⟩
    · exact .inl ⟨played, resolved, hcompletes, by rwa [hparse]⟩
    · exact .inr ⟨q, cause, hparse.trans hfail, .inl hinterrupts⟩

/-- The codes with which a text can be interrupted. -/
theorem failed_code {cause : Fatal} (limit : Option UInt32)
    (h : Interrupts (tokenize source) (ofSource source settings).started {} cause ∨
      ∃ e, cause = .storage e .zero ∧ e.isCapacity ∧ indexCapacity < settings.reserved.size) :
    (cause.diagnostic limit).code = Code.capacity ∧
        indexCapacity < settings.reserved.size + 5 * (script .item (tokenize source)).1.length ∨
      (cause.diagnostic limit).code = Code.tooMany ∧ (∃ n, settings.maxDiagnostics = some n) ∨
      (cause.diagnostic limit).code = Code.corrupt ∧ ∃ t ∈ tokenize source, t.kind = .corrupt := by
  obtain ⟨symbols, seedError, hsource, -, hsize, -⟩ := ofSource_eq source settings
  rcases h with hinterrupts | ⟨e, rfl, he, hfull⟩
  · rw [hsource] at hinterrupts
    rcases hinterrupts with
      (⟨e, span, rfl, he, hfull⟩ | ⟨span, n, rfl, hlimit⟩) | ⟨span, rfl, hcorrupt⟩
    · refine .inl ⟨Fatal.code_storage he limit span, Nat.not_le.1 fun hle => hfull ⟨?_, ?_, ?_⟩⟩
      · exact Nat.le_trans (Nat.add_le_add_right hsize _) hle
      · exact Nat.le_trans (Nat.add_le_add_right (Nat.zero_le _) _) hle
      · exact Nat.le_trans (Nat.add_le_add_right (Nat.zero_le _) _) hle
    · exact .inr (.inl ⟨rfl, n, hlimit⟩)
    · exact .inr (.inr ⟨rfl, hcorrupt⟩)
  · exact .inl ⟨Fatal.code_storage he limit _, by omega⟩

theorem finishes_of_ended (h : (parse source settings).phase = .succeeded ∨
    (parse source settings).FailedWith Code.unclosed) :
    ∃ played resolved, Finishes source settings played resolved := by
  rcases parse_cases source settings with hfinishes | ⟨q, cause, hfail, hcause⟩
  · exact hfinishes
  rw [hfail] at h
  rcases h with hphase | hunclosed
  · cases hphase
  · have hcode := fail_failedWith.1 hunclosed
    rcases failed_code q.settings.maxDiagnostics hcause with
      ⟨hother, -⟩ | ⟨hother, -⟩ | ⟨hother, -⟩ <;>
    · rw [hother] at hcode
      exact absurd hcode (by decide)

theorem Finishes.ended {played resolved : Parse} (h : Finishes source settings played resolved) :
    (parse source settings).phase = .succeeded ∨
      (parse source settings).FailedWith Code.unclosed := by
  rcases h.2 with hend | ⟨span, hend⟩
  · rw [hend]
    exact .inl rfl
  · rw [hend]
    exact .inr (fail_failedWith.2 rfl)

/-- A parse that reads its whole text succeeds, unless a block was left open. -/
theorem Finishes.parse_eq {played resolved : Parse} (h : Finishes source settings played resolved) :
    parse source settings =
      match resolved.blocks.back? with
      | some block => resolved.fail (.unclosed block.span)
      | none => { resolved with phase := .succeeded } := by
  cases hseed : (ofSource source settings).seedError with
  | none => rw [parse_of_seeded hseed, h.1.ended]
  | some e =>
    have hended := h.ended
    rw [parse_of_unseeded hseed] at hended
    rcases hended with hphase | hunclosed
    · cases hphase
    · rw [fail_failedWith, Fatal.diagnostic] at hunclosed
      split at hunclosed
      · exact absurd hunclosed (by decide : Code.capacity ≠ Code.unclosed)
      · exact absurd hunclosed (by decide : Code.storage ≠ Code.unclosed)

theorem finishes_of_unlimited (hcorrupt : ∀ t ∈ tokenize source, t.kind ≠ .corrupt)
    (hlimit : settings.maxDiagnostics = none)
    (hroom : ¬ (parse source settings).FailedWith Code.capacity) :
    ∃ played resolved, Finishes source settings played resolved := by
  rcases parse_cases source settings with hfinishes | ⟨q, cause, hfail, hcause⟩
  · exact hfinishes
  rw [hfail, fail_failedWith] at hroom
  rcases failed_code q.settings.maxDiagnostics hcause with
    ⟨hcapacity, -⟩ | ⟨-, n, hsome⟩ | ⟨-, t, ht, hkind⟩
  · exact absurd hcapacity hroom
  · rw [hlimit] at hsome
    cases hsome
  · exact absurd hkind (hcorrupt t ht)

/-- A text of few tokens fits into every index space. -/
theorem not_capacity_of_short
    (h : 22 + settings.keywords.length + 35 * (tokenize source).length ≤ indexCapacity) :
    ¬ (parse source settings).FailedWith Code.capacity := by
  rcases parse_cases source settings with ⟨played, resolved, -, hend⟩ | ⟨q, cause, hfail, hcause⟩
  · rcases hend with hend | ⟨span, hend⟩
    · rw [hend]
      intro hfailed
      cases hfailed.1
    · rw [hend, fail_failedWith]
      intro hcode
      exact absurd hcode (by decide : Code.unclosed ≠ Code.capacity)
  · rw [hfail, fail_failedWith]
    intro hcode
    rcases failed_code q.settings.maxDiagnostics hcause with ⟨-, hfull⟩ | ⟨hother, -⟩ | ⟨hother, -⟩
    · have hreserved := Settings.reserved_size settings
      have hscript := script_length .item (tokenize source)
      rw [if_pos rfl] at hscript
      omega
    all_goals
      rw [hother] at hcode
      exact absurd hcode (by decide)

end Whole

end Parse

end LabelGraph
