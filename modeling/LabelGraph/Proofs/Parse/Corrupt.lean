import LabelGraph.Proofs.Parse.Acceptance
import LabelGraph.Proofs.Parse.Lockstep
import LabelGraph.Proofs.Parse.Streaming
import LabelGraph.Proofs.Token.Corrupt

/-!
What a NUL does to a parse. It stops the reading at the first one that is a token, and the script
up to there is the same whatever tokens follow. So nothing behind the NUL has a say in what the
parse leaves, and without limits the NUL is what the parse fails with.
-/

namespace LabelGraph

/-- The same event, but for the tokens behind the end of a line. -/
inductive Event.Matches : Event → Event → Prop where
  | perform (a : Action) : Matches (.perform a) (.perform a)
  | consume (t : Token) : Matches (.consume t) (.consume t)
  | nextLine (rest rest' : List Token) : Matches (.nextLine rest) (.nextLine rest')

section Script

variable {init tail tokens : List Token} {t : Token}

theorem matches_perform (actions : List Action) :
    List.Forall₂ Event.Matches (actions.map .perform) (actions.map .perform) := by
  induction actions with
  | nil => exact .nil
  | cons a actions ih => exact .cons (.perform a) ih

theorem Grammar.Ended.front (h : Ended (init ++ t :: tail)) : ∀ u ∈ init, u.kind ≠ .eof := by
  induction init with
  | nil => simp
  | cons u init ih =>
    have hu : u.kind ≠ .eof := by
      intro heof
      generalize htokens : u :: init ++ t :: tail = tokens at h
      cases h with
      | last => simp at htokens
      | cons hmore _ =>
        cases htokens
        exact hmore heof
    exact List.forall_mem_cons.2 ⟨hu, ih (h.rest hu)⟩

theorem front_of_tokens {source : List UInt8} (htokens : tokenize source = init ++ t :: tail)
    (hinit : ∀ u ∈ init, u.kind ≠ .corrupt) : ∀ u ∈ init, u.kind ≠ .corrupt ∧ u.kind ≠ .eof := by
  have hended : Grammar.Ended (tokenize source) := Scanner.tokens_ended _
  rw [htokens] at hended
  exact fun u hu => ⟨hinit u hu, hended.front u hu⟩

/-- A token that is not the corrupt one stands in front of it. -/
theorem front_cons (ht : t.kind = .corrupt) {u : Token} {rest : List Token}
    (hu : u.kind ≠ .corrupt) (h : u :: rest = init ++ t :: tail) :
    ∃ init', init = u :: init' ∧ rest = init' ++ t :: tail := by
  cases init with
  | nil => exact absurd ((List.cons.inj h).1 ▸ ht) hu
  | cons v init => exact ⟨init, by rw [(List.cons.inj h).1], (List.cons.inj h).2⟩

/-- Up to a corrupt token the script is the same whatever follows it, and it stops there. -/
theorem script_before (place : Place) (hinit : ∀ u ∈ init, u.kind ≠ .corrupt ∧ u.kind ≠ .eof)
    (ht : t.kind = .corrupt) (tail' : List Token) (htokens : tokens = init ++ t :: tail) :
    List.Forall₂ Event.Matches (script place tokens).1 (script place (init ++ t :: tail')).1 ∧
      (script place tokens).2 = .corrupt t.span ∧
        (script place (init ++ t :: tail')).2 = .corrupt t.span := by
  induction place, tokens using script_induct generalizing init with
  | nil place => simp at htokens
  | corrupt place u rest hu =>
    cases init with
    | nil =>
      cases htokens
      rw [List.nil_append, script_corrupt ht, script_corrupt ht]
      exact ⟨.nil, rfl, rfl⟩
    | cons v init =>
      cases htokens
      exact absurd hu (hinit u (List.mem_cons_self ..)).1
  | take place u rest before after next hu hmove ih =>
    obtain ⟨init, rfl, hrest⟩ := front_cons ht hu htokens
    obtain ⟨hmore, hstop⟩ := ih (List.forall_mem_cons.1 hinit).2 hrest
    rw [List.cons_append, script_take hu hmove, script_take hu hmove]
    refine ⟨List.rel_append (matches_perform before) (.cons (.consume u) ?_), hstop⟩
    exact List.rel_append (matches_perform after) hmore
  | newline place u rest before hu hmove ih =>
    obtain ⟨init, rfl, hrest⟩ := front_cons ht hu htokens
    obtain ⟨hmore, hstop⟩ := ih (List.forall_mem_cons.1 hinit).2 hrest
    rw [List.cons_append, script_newline hu hmove, script_newline hu hmove]
    refine ⟨List.rel_append ?_ (.cons (.nextLine _ _) hmore), hstop⟩
    exact List.rel_append (matches_perform before) (.cons (.consume u) .nil)
  | leave place u rest before hu hmove ih =>
    obtain ⟨hmore, hstop⟩ := ih hinit htokens
    obtain ⟨init, rfl, hrest⟩ := front_cons ht hu htokens
    rw [List.cons_append] at hmore hstop ⊢
    rw [script_leave hu hmove, script_leave hu hmove]
    exact ⟨List.rel_append (matches_perform before) (.cons (.nextLine _ _) hmore), hstop⟩
  | endText place u rest hu hmove =>
    obtain ⟨init, rfl, -⟩ := front_cons ht hu htokens
    exact absurd (endText_eof hmove) (hinit u (List.mem_cons_self ..)).2

end Script

namespace Parse

variable {init tail : List Token} {t : Token}

/-- Events that match do the same in front of any tokens. -/
theorem playAll_matches {events events' : List Event}
    (h : List.Forall₂ Event.Matches events events') (rest : List Token) (p : Parse) :
    ∃ rest', playAll events' (p.facing rest) = resultFacing rest' (playAll events p) := by
  induction h generalizing rest p with
  | nil => exact ⟨rest, rfl⟩
  | cons hfirst _ ih =>
    cases hfirst with
    | consume t => exact ih rest { p with previous := t.span }
    | nextLine left left' => exact ih left' { p with rest := left, phase := .parsing }
    | perform a =>
      have hact := (act_routine a).blind id rest p
      rw [playAll_cons, playAll_cons, play]
      cases h : act a p with
      | ok u q =>
        rw [h] at hact
        rw [bind_of_ok hact, bind_of_ok h]
        exact ih rest q
      | error cause q =>
        rw [h] at hact
        rw [bind_of_error hact, bind_of_error h]
        exact ⟨rest, rfl⟩

theorem ended_facing (rest : List Token) (r : EStateM.Result Fatal Parse Unit) :
    ended (resultFacing rest r) = (ended r).facing rest := by
  cases r <;> rfl

section Before

variable (hinit : ∀ u ∈ init, u.kind ≠ .corrupt ∧ u.kind ≠ .eof) (ht : t.kind = .corrupt)
include hinit ht

/-- What is played up to a corrupt token does not depend on what follows it. -/
theorem performance_before (tail tail' rest : List Token) (p : Parse) :
    ∃ rest', performance (init ++ t :: tail') (p.facing rest) =
      resultFacing rest' (performance (init ++ t :: tail) p) := by
  obtain ⟨hevents, hstop, hstop'⟩ :=
    script_before .item hinit ht tail' (Eq.refl (init ++ t :: tail))
  obtain ⟨rest', hplay⟩ := playAll_matches hevents rest p
  refine ⟨rest', ?_⟩
  rw [performance, performance, hstop, hstop']
  cases h : playAll (script .item (init ++ t :: tail)).1 p with
  | ok u q =>
    rw [h] at hplay
    rw [bind_of_ok hplay, bind_of_ok h]
    rfl
  | error cause q =>
    rw [h] at hplay
    rw [bind_of_error hplay, bind_of_error h]
    rfl

end Before

/-- Two texts with the same tokens up to a corrupt one are parsed alike. -/
theorem run_before {source source' : List UInt8} {tail' : List Token}
    (htokens : tokenize source = init ++ t :: tail)
    (htokens' : tokenize source' = init ++ t :: tail') (ht : t.kind = .corrupt)
    (hinit : ∀ u ∈ init, u.kind ≠ .corrupt) (settings : Settings)
    (table? : Option SymbolTable) :
    ∃ rest, (opened source' settings table?).run =
      (opened source settings table?).run.facing rest := by
  have hfront := front_of_tokens htokens hinit
  have hstart := opened_facing source source' settings table?
  have hseed := congrArg seedError hstart
  have hstarted := congrArg started hstart
  cases h : (opened source settings table?).seedError with
  | some e =>
    rw [Comparison.run_unseeded h, Comparison.run_unseeded (hseed.trans h), hstarted]
    exact ⟨tokenize source', rfl⟩
  | none =>
    rw [Comparison.run_seeded h, Comparison.run_seeded (hseed.trans h), hstarted, htokens]
    obtain ⟨rest, hperformance⟩ := performance_before hfront ht tail tail' (tokenize source')
      (opened source settings table?).started
    rw [htokens'] at hperformance ⊢
    exact ⟨rest, (congrArg ended hperformance).trans (ended_facing ..)⟩

section Fatal

variable {source : List UInt8} {settings : Settings}

/-- Only a limit ends a parse before it comes to the first corrupt token. -/
theorem parse_fatal (htokens : tokenize source = init ++ t :: tail) (ht : t.kind = .corrupt)
    (hinit : ∀ u ∈ init, u.kind ≠ .corrupt) (hlimit : settings.maxDiagnostics = none)
    (hroom : ¬ (parse source settings).FailedWith Code.capacity) :
    ∃ q : Parse, parse source settings = q.fail (.corrupt t.span) := by
  obtain ⟨symbols, seedError, hsource, -, -, hcapacity⟩ := ofSource_eq source settings
  have hfront := front_of_tokens htokens hinit
  cases hseed : (ofSource source settings).seedError with
  | some e =>
    rw [parse_of_unseeded hseed, fail_failedWith] at hroom
    rw [hsource] at hseed
    exact absurd (Fatal.code_storage (hcapacity e hseed).1 ..) hroom
  | none =>
    have hparse := parse_of_seeded hseed
    have hstop := (script_before .item hfront ht tail htokens).2.1
    rw [performance, hstop] at hparse
    cases hplay : playAll (script .item (tokenize source)).1 (ofSource source settings).started with
    | ok u q =>
      rw [bind_of_ok hplay] at hparse
      exact ⟨q, hparse⟩
    | error cause q =>
      rw [bind_of_error hplay] at hparse
      rcases playAll_error (started_sound source settings) hplay with
        ⟨e, span, rfl, he, -⟩ | ⟨span, limit, rfl, hsome⟩
      · rw [hparse, ended, fail_failedWith] at hroom
        exact absurd (Fatal.code_storage he ..) hroom
      · rw [hsource] at hsome
        cases hlimit.symm.trans hsome

/-- No parse fails with a NUL that is not a token. -/
theorem corrupt_of_failedWith (h : (parse source settings).FailedWith Code.corrupt) :
    ∃ t ∈ tokenize source, t.kind = .corrupt := by
  rcases parse_cases source settings with ⟨played, resolved, hfinishes⟩ | ⟨q, cause, hfail, hcause⟩
  · rcases hfinishes.ended with hphase | hunclosed
    · cases hphase.symm.trans h.1
    · exact absurd (Option.some.inj (h.2.symm.trans hunclosed.2)) (by decide)
  · rw [hfail, fail_failedWith] at h
    rcases failed_code q.settings.maxDiagnostics hcause with
      ⟨hcode, -⟩ | ⟨hcode, -⟩ | ⟨-, hcorrupt⟩
    · exact absurd (h.symm.trans hcode) (by decide)
    · exact absurd (h.symm.trans hcode) (by decide)
    · exact hcorrupt

end Fatal

end Parse

open Parse

/-- Nothing behind the first corrupt token has a say in the result. A text that agrees with another
one on the bytes up to this NUL has the same first corrupt token, and its parse is the same but
for the tokens that are left. And the NUL is fatal: without a limit on diagnostics, and unless
an index space is used up, a parse fails with a NUL exactly if there is a corrupt token, and then
at the first one. -/
theorem parse_corrupt (source : List UInt8) (settings : Settings) :
    (∀ t other, firstCorrupt? source = some t →
      other.take (t.start + 1) = source.take (t.start + 1) →
        firstCorrupt? other = some t ∧
          parse other settings =
            { parse source settings with rest := (parse other settings).rest }) ∧
    (settings.maxDiagnostics = none → ¬ (parse source settings).FailedWith Code.capacity →
      ((parse source settings).FailedWith Code.corrupt ↔
        ∃ t ∈ tokenize source, t.kind = .corrupt) ∧
      ∀ t, firstCorrupt? source = some t →
        (parse source settings).FailedWith Code.corrupt ∧
          (parse source settings).diagnostics.back?.map Diagnostic.span = some t.span) := by
  constructor
  case left =>
    intro t other hfirst hsame
    obtain ⟨ht, init, tail, htokens, hinit⟩ := firstCorrupt?_eq.1 hfirst
    obtain ⟨tail', htokens'⟩ := tokenize_corrupt htokens ht hsame
    obtain ⟨rest, hrun⟩ := run_before htokens htokens' ht hinit settings none
    refine ⟨firstCorrupt?_eq.2 ⟨ht, init, tail', htokens', hinit⟩, ?_⟩
    change parse other settings = (parse source settings).facing rest at hrun
    rw [hrun]
    rfl
  case right =>
    intro hlimit hroom
    have hfatal : ∀ t, firstCorrupt? source = some t →
        (parse source settings).FailedWith Code.corrupt ∧
          (parse source settings).diagnostics.back?.map Diagnostic.span = some t.span := by
      intro t hfirst
      obtain ⟨ht, init, tail, htokens, hinit⟩ := firstCorrupt?_eq.1 hfirst
      obtain ⟨q, hparse⟩ := parse_fatal htokens ht hinit hlimit hroom
      rw [hparse]
      refine ⟨fail_failedWith.2 rfl, ?_⟩
      rw [fail, Array.back?_push]
      rfl
    refine ⟨⟨corrupt_of_failedWith, fun hcorrupt => ?_⟩, hfatal⟩
    obtain ⟨t, hfirst⟩ := firstCorrupt?_of_mem hcorrupt
    exact (hfatal t hfirst).1

/-- A NUL in a string, which is none of the tokens, and one behind it that is. In one text the rest
opens a string, in the other one a block. -/
theorem parse_corrupt_string :
    let t : Token := { kind := .corrupt, text := "\x00"
                       span := { start := { line := 1, column := 14, offset := 13 }
                                 stop := { line := 1, column := 15, offset := 14 } } }
    let settings : Settings := { maxDiagnostics := none }
    let source := "a: mov \"\x00\", b\x00\"\n".toUTF8.toList
    let other := "a: mov \"\x00\", b\x00\nb: \x7b\x00".toUTF8.toList
    firstCorrupt? source = some t ∧ other.take (t.start + 1) = source.take (t.start + 1) ∧
      settings.maxDiagnostics = none ∧ ¬ (parse source settings).FailedWith Code.capacity ∧
      firstCorrupt? other = some t ∧
      parse other settings = { parse source settings with rest := (parse other settings).rest } ∧
      (parse source settings).FailedWith Code.corrupt ∧
      (parse source settings).diagnostics.back?.map Diagnostic.span = some t.span := by
  intro t settings source other
  have hfirst : firstCorrupt? source = some t := by decide +kernel
  have hsame : other.take (t.start + 1) = source.take (t.start + 1) := by decide +kernel
  have hroom : ¬ (parse source settings).FailedWith Code.capacity :=
    not_capacity_of_short (by decide +kernel)
  obtain ⟨hother, hparse⟩ := (parse_corrupt source settings).1 t other hfirst hsame
  obtain ⟨hfailed, hspan⟩ := ((parse_corrupt source settings).2 rfl hroom).2 t hfirst
  exact ⟨hfirst, hsame, rfl, hroom, hother, hparse, hfailed, hspan⟩

end LabelGraph
