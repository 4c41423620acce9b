import LabelGraph.Proofs.Parse.Stage
import LabelGraph.Proofs.Token.Cover
import Mathlib.Data.List.Perm.Subperm

/-!
The pace of a parse. A step moves over the tokens of one line and over none behind it, and as
long as the parse goes on it moves over one at least. So a parse ends after no more steps than
the text has bytes, and one. The position of a parse is that of the last token it moved over,
and it never goes back.
-/

namespace LabelGraph

def Event.token? : Event → Option Token
  | .consume t => some t
  | _ => none

theorem filterMap_perform (actions : List Action) :
    (actions.map Event.perform).filterMap Event.token? = [] := by
  rw [List.filterMap_eq_nil_iff]
  intro e he
  obtain ⟨a, -, rfl⟩ := List.mem_map.1 he
  rfl

@[simp] theorem filterMap_consume (t : Token) (events : List Event) :
    (.consume t :: events).filterMap Event.token? = t :: events.filterMap Event.token? := rfl

@[simp] theorem filterMap_nextLine (rest : List Token) (events : List Event) :
    (.nextLine rest :: events).filterMap Event.token? = events.filterMap Event.token? := rfl

/-! The tokens of a line. -/

theorem endLine_newline {place : Place} {t : Token} {before : List Action}
    (hmove : place.move t = .endLine before true) : t.kind = .newline := by
  cases ht : t.kind <;> cases place <;>
    simp [Place.move, ht, Move.operands, Move.operand, Move.finish, Move.passOver, Move.reject,
      Move.afterAction, Kind.isBoundary] at hmove ⊢

/-- The tokens that a line moves over: the end of the text is none of them, and a newline at
most the last one. -/
structure OfLine (tokens taken : List Token) : Prop where
  begins : taken <+: tokens
  more : ∀ t ∈ taken, t.kind ≠ .eof
  newline : ∀ t ∈ taken.dropLast, t.kind ≠ .newline

theorem OfLine.nil (tokens : List Token) : OfLine tokens [] :=
  ⟨List.nil_prefix, nofun, nofun⟩

theorem OfLine.one {t : Token} (rest : List Token) (ht : t.kind = .newline) :
    OfLine (t :: rest) [t] where
  begins := ⟨rest, rfl⟩
  more u hu := by
    rw [List.mem_singleton.1 hu, ht]
    decide
  newline := nofun

theorem OfLine.cons {t : Token} {rest taken : List Token} (heof : t.kind ≠ .eof)
    (hnewline : t.kind ≠ .newline) (h : OfLine rest taken) : OfLine (t :: rest) (t :: taken) where
  begins := List.prefix_cons_inj t |>.2 h.begins
  more := List.forall_mem_cons.2 ⟨heof, h.more⟩
  newline u hu := by
    cases taken with
    | nil => cases hu
    | cons v taken =>
      rw [List.dropLast_cons_cons] at hu
      rcases List.mem_cons.1 hu with rfl | hu
      · exact hnewline
      · exact h.newline u hu

theorem OfLine.initial {tokens taken first : List Token} (h : OfLine tokens taken)
    (hfirst : first <+: taken) : OfLine tokens first where
  begins := hfirst.trans h.begins
  more t ht := h.more t (hfirst.subset ht)
  newline t ht := by
    obtain ⟨later, rfl⟩ := hfirst
    rcases List.eq_nil_or_concat later with rfl | ⟨later, last, rfl⟩
    · rw [List.append_nil] at h
      exact h.newline t ht
    · have hmem := List.mem_append_left later (List.dropLast_subset first ht)
      rw [List.concat_eq_append, ← List.append_assoc] at h
      exact h.newline t (by rwa [List.dropLast_concat])

/-- A line moves over tokens of its own, and goes on to the next line right behind them. -/
theorem line_tokens (place : Place) (tokens : List Token) :
    OfLine tokens ((place.line tokens).1.filterMap Event.token?) ∧
      ∀ rest, (place.line tokens).2 = .line rest →
        tokens = (place.line tokens).1.filterMap Event.token? ++ rest := by
  induction tokens generalizing place with
  | nil =>
    refine ⟨.nil [], ?_⟩
    rintro _ ⟨⟩
  | cons t rest ih =>
    rw [Place.line]
    by_cases ht : t.kind = .corrupt
    · rw [if_pos ht]
      refine ⟨.nil _, ?_⟩
      rintro _ ⟨⟩
    rw [if_neg ht]
    cases hmove : place.move t with
    | take before after next =>
      obtain ⟨hline, hstop⟩ := ih next
      simp only [List.filterMap_append, filterMap_consume, filterMap_perform, List.nil_append]
      refine ⟨hline.cons (Grammar.take_ne_eof hmove) (take_ne_newline hmove), ?_⟩
      intro more hmore
      exact congrArg (t :: ·) (hstop more hmore)
    | endLine before taken =>
      cases taken with
      | true =>
        simp only [List.filterMap_append, filterMap_perform]
        refine ⟨.one rest (endLine_newline hmove), ?_⟩
        rintro _ ⟨⟩
        rfl
      | false =>
        simp only [filterMap_perform]
        refine ⟨.nil _, ?_⟩
        rintro _ ⟨⟩
        rfl
    | endText =>
      refine ⟨.nil _, ?_⟩
      rintro _ ⟨⟩

namespace Parse

/-! The tokens of a step. -/

def consumed : List Event → Parse → List Token
  | [], _ => []
  | e :: events, p =>
    match play e p with
    | .ok _ q => e.token?.toList ++ consumed events q
    | .error _ _ => []

/-- The tokens that the next step moves over. A parse that has ended moves over none, nor does
one whose reserved words do not fit into a table. -/
def takes (p : Parse) : List Token :=
  if p.phase.isTerminal ∨ p.seedError.isSome then []
  else consumed (Place.item.line p.rest).1 p.started

def read (p : Parse) : Nat → List Token
  | 0 => []
  | k + 1 => p.read k ++ (Parse.step^[k] p).takes

variable {p q : Parse} {events : List Event}

theorem consumed_of_ok (h : playAll events p = .ok () q) :
    consumed events p = events.filterMap Event.token? := by
  induction events generalizing p with
  | nil => rfl
  | cons e events ih =>
    obtain ⟨_, r, hplay, hrest⟩ := bind_ok_iff.1 h
    rw [consumed, hplay]
    simp only [ih hrest]
    cases htoken : e.token? <;> simp [htoken]

theorem consumed_begins (events : List Event) (p : Parse) :
    consumed events p <+: events.filterMap Event.token? := by
  induction events generalizing p with
  | nil => exact List.prefix_rfl
  | cons e events ih =>
    rw [consumed]
    split
    · next q _ =>
      have hmore := (List.prefix_append_right_inj e.token?.toList).2 (ih q)
      cases htoken : e.token? <;> simpa [htoken] using hmore
    · exact List.nil_prefix

theorem takes_of_terminal (h : p.phase.isTerminal) : p.takes = [] := by
  rw [takes, if_pos (.inl h)]

theorem takes_of_seeded (h : p.phase.isTerminal = false) (hseed : p.seedError = none) :
    p.takes = consumed (Place.item.line p.rest).1 p.started := by
  rw [takes, if_neg (by simp [h, hseed])]

theorem takes_ofLine (p : Parse) : OfLine p.rest p.takes := by
  unfold takes
  split
  · exact .nil _
  · exact (line_tokens .item p.rest).1.initial (consumed_begins _ _)

/-- A step that does not end the parse moves over at least one token, up to the tokens that
are still to be read behind it. -/
theorem takes_of_ongoing (h : p.step.phase.isTerminal = false) :
    p.takes ≠ [] ∧ p.rest = p.takes ++ p.step.rest := by
  have hseed := seeded_ongoing h
  have hread := readStep_ongoing h
  rw [readStep_eq hseed] at hread
  obtain ⟨_, q, hplay, hclose⟩ := bind_ok_iff.1 hread
  have htakes := (takes_of_seeded (step_ongoing h) hseed).trans (consumed_of_ok hplay)
  cases hstop : (Place.item.line p.rest).2 with
  | text =>
    rw [hstop] at hclose
    rw [finish_phase hclose] at h
    cases h
  | corrupt span =>
    rw [hstop] at hclose
    cases hclose
  | line rest =>
    rw [hstop] at hclose
    have hrest : p.step.rest = rest := congrArg Parse.rest (EStateM.Result.ok.inj hclose).2.symm
    have hall := (line_tokens .item p.rest).2 rest hstop
    rw [← htakes, ← hrest] at hall
    refine ⟨?_, hall⟩
    intro hnone
    have hless := (Place.line_length (Prod.ext rfl hstop)).2 rfl
    rw [hnone, List.nil_append, hrest] at hall
    exact Nat.lt_irrefl _ (hall ▸ hless)

/-! The position. -/

/-- Where the last one of the tokens stands, or where a parse stands that moved over none. -/
def lastSpan (start : Span) (tokens : List Token) : Span :=
  (tokens.getLast?.map Token.span).getD start

@[simp] theorem lastSpan_append (start : Span) (first later : List Token) :
    lastSpan start (first ++ later) = lastSpan (lastSpan start first) later := by
  unfold lastSpan
  rw [List.getLast?_append]
  cases later.getLast? <;> rfl

theorem playAll_previous (events : List Event) (p : Parse) :
    (after (playAll events) p).previous = lastSpan p.previous (consumed events p) := by
  induction events generalizing p with
  | nil => rfl
  | cons e events ih =>
    rw [playAll_cons, consumed]
    cases hplay : play e p with
    | error cause q =>
      rw [after_bind_of_error hplay]
      cases e with
      | perform a => exact ((act_routine a).changes_of_error hplay).previous id
      | consume t => cases hplay
      | nextLine rest => cases hplay
    | ok _ q =>
      rw [after_bind_of_ok hplay, ih]
      simp only [lastSpan_append]
      congr 1
      cases e with
      | perform a => exact ((act_routine a).changes_of_ok hplay).previous id
      | consume t =>
        cases hplay
        rfl
      | nextLine rest =>
        cases hplay
        rfl

theorem step_previous (p : Parse) : p.step.previous = lastSpan p.previous p.takes := by
  cases hphase : p.phase.isTerminal with
  | true =>
    rw [step_of_terminal hphase, takes_of_terminal hphase]
    rfl
  | false =>
    rw [step_of_ongoing hphase]
    cases hseed : p.seedError with
    | some e =>
      rw [readStep_unseeded hseed, takes, if_pos (.inr (by rw [hseed]; rfl))]
      rfl
    | none =>
      rw [readStep_eq hseed, ended_keeps previous fun _ _ => rfl, takes_of_seeded hphase hseed]
      have hplayed := playAll_previous (Place.item.line p.rest).1 p.started
      cases hplay : playAll (Place.item.line p.rest).1 p.started with
      | error cause q =>
        rw [after_bind_of_error hplay, ← after_of_error hplay]
        exact hplayed
      | ok _ q =>
        rw [after_bind_of_ok hplay, ((close_routine _).changes q).previous id, ← after_of_ok hplay]
        exact hplayed

/-! The steps of a parse. -/

theorem read_previous (p : Parse) (k : Nat) :
    (Parse.step^[k] p).previous = lastSpan p.previous (p.read k) := by
  induction k with
  | zero => rfl
  | succ k ih => rw [Function.iterate_succ_apply', step_previous, ih, read, lastSpan_append]

/-- As long as a parse goes on, each step moves over a token, and what was moved over and what
is still to be read are all the tokens. -/
theorem read_of_ongoing {k : Nat} (h : (Parse.step^[k] p).phase.isTerminal = false) :
    p.rest = p.read k ++ (Parse.step^[k] p).rest ∧ k ≤ (p.read k).length := by
  induction k with
  | zero => exact ⟨rfl, Nat.le_refl 0⟩
  | succ k ih =>
    rw [Function.iterate_succ_apply'] at h ⊢
    obtain ⟨hall, hlength⟩ := ih (step_ongoing h)
    obtain ⟨hsome, hstep⟩ := takes_of_ongoing h
    have hpos := List.length_pos_iff.2 hsome
    rw [read, List.append_assoc, ← hstep, List.length_append]
    exact ⟨hall, by omega⟩

theorem read_begins (p : Parse) (k : Nat) : p.read k <+: p.rest := by
  induction k with
  | zero => exact List.nil_prefix
  | succ k ih =>
    rw [read]
    cases h : (Parse.step^[k] p).phase.isTerminal with
    | true => rwa [takes_of_terminal h, List.append_nil]
    | false =>
      rw [(read_of_ongoing h).1]
      exact (List.prefix_append_right_inj _).2 (takes_ofLine _).begins

theorem read_more {k : Nat} {t : Token} (ht : t ∈ p.read k) : t.kind ≠ .eof := by
  induction k with
  | zero => cases ht
  | succ k ih =>
    rcases List.mem_append.1 ht with ht | ht
    · exact ih ht
    · exact (takes_ofLine _).more t ht

/-- Where a parse stands after `k` of its steps, and what the next step does. -/
structure Paced (p : Parse) (k : Nat) : Prop where
  begins : p.read (k + 1) <+: p.rest
  newline : ∀ t ∈ (Parse.step^[k] p).takes.dropLast, t.kind ≠ .newline
  goesOn : (Parse.step^[k + 1] p).phase = .parsing → (Parse.step^[k] p).takes ≠ [] ∧
    (Parse.step^[k] p).rest = (Parse.step^[k] p).takes ++ (Parse.step^[k + 1] p).rest
  previous : (Parse.step^[k] p).previous = lastSpan .zero (p.read k)
  ordered : (Parse.step^[k] p).previous.start.offset ≤ (Parse.step^[k] p).previous.stop.offset
  onward : (Parse.step^[k] p).previous.stop.offset ≤
    (Parse.step^[k + 1] p).previous.stop.offset

end Parse

/-! The tokens of a text. -/

section Tokens

variable {source : List UInt8} {tokens first later : List Token} {t : Token}

theorem Covers.stop_le (h : Covers source tokens) (ht : t ∈ tokens) : t.stop ≤ source.length := by
  obtain ⟨init, eof, rfl, -, -, hpoint, hend⟩ := h.ends
  rcases List.mem_append.1 ht with ht | ht
  · have hapart := (List.pairwise_append.1 h.apart).2.2 t ht eof (List.mem_singleton_self eof)
    exact hend ▸ hapart
  · rw [List.mem_singleton.1 ht, Token.stop, hpoint]
    exact Nat.le_of_eq hend

/-- There are no more tokens in front of the end of a text than it has bytes. -/
theorem Covers.length_le (h : Covers source tokens) (hfirst : first <+: tokens)
    (hmore : ∀ t ∈ first, t.kind ≠ .eof) : first.length ≤ source.length := by
  have hfilled : ∀ t ∈ first, t.start < t.stop := by
    intro t ht
    exact h.filled t (hfirst.subset ht) (hmore t ht)
  have hnodup : (first.map Token.start).Nodup := by
    refine List.pairwise_map.2 ((h.apart.sublist hfirst.sublist).imp_of_mem ?_)
    intro t u ht _ hapart
    exact Nat.ne_of_lt (Nat.lt_of_lt_of_le (hfilled t ht) hapart)
  have hinside : first.map Token.start ⊆ List.range source.length := by
    intro i hi
    obtain ⟨t, ht, rfl⟩ := List.mem_map.1 hi
    exact List.mem_range.2 (Nat.lt_of_lt_of_le (hfilled t ht) (h.stop_le (hfirst.subset ht)))
  simpa using (hnodup.subperm hinside).length_le

theorem Covers.lastSpan_ordered (h : Covers source tokens) (hfirst : first <+: tokens)
    (hmore : ∀ t ∈ first, t.kind ≠ .eof) :
    (Parse.lastSpan .zero first).start.offset ≤ (Parse.lastSpan .zero first).stop.offset := by
  unfold Parse.lastSpan
  cases hlast : first.getLast? with
  | none => exact Nat.le_refl 0
  | some t =>
    have ht := List.mem_of_getLast? hlast
    exact Nat.le_of_lt (h.filled t (hfirst.subset ht) (hmore t ht))

theorem Covers.lastSpan_onward (h : Covers source tokens) (hall : first ++ later <+: tokens)
    (hmore : ∀ t ∈ later, t.kind ≠ .eof) :
    (Parse.lastSpan .zero first).stop.offset ≤
      (Parse.lastSpan .zero (first ++ later)).stop.offset := by
  have hlast (start : Span) : Parse.lastSpan start later =
      (later.getLast?.map Token.span).getD start := rfl
  rw [Parse.lastSpan_append, hlast]
  cases hlater : later.getLast? with
  | none => exact Nat.le_refl _
  | some u =>
    have hu := List.mem_of_getLast? hlater
    rw [Option.map_some, Option.getD_some, Parse.lastSpan]
    cases hfirst : first.getLast? with
    | none => exact Nat.zero_le _
    | some t =>
      have ht := List.mem_of_getLast? hfirst
      have hapart := (List.pairwise_append.1 (h.apart.sublist hall.sublist)).2.2 t ht u hu
      have hfilled := h.filled u (hall.subset (List.mem_append_right first hu)) (hmore u hu)
      exact Nat.le_trans hapart (Nat.le_of_lt hfilled)

end Tokens

namespace Parse

theorem opened_previous (source : List UInt8) (settings : Settings)
    (table? : Option SymbolTable) : (opened source settings table?).previous = .zero := by
  cases table? with
  | some symbols => rfl
  | none =>
    simp only [opened, ofSource]
    cases SymbolTable.seeded settings.reserved <;> rfl

theorem steps_paced (source : List UInt8) (settings : Settings) (table? : Option SymbolTable)
    (k : Nat) : (opened source settings table?).Paced k := by
  have hcovers := covers_tokenize source
  have hrest := (opened_start source settings table?).2.2
  have hread (n : Nat) : (opened source settings table?).read n <+: tokenize source :=
    hrest ▸ read_begins _ n
  have hprevious (n : Nat) : (Parse.step^[n] (opened source settings table?)).previous =
      lastSpan .zero ((opened source settings table?).read n) := by
    rw [read_previous, opened_previous]
  constructor
  case begins => exact read_begins _ _
  case newline => exact (takes_ofLine _).newline
  case previous => exact hprevious k
  case goesOn =>
    intro h
    rw [Function.iterate_succ_apply'] at h ⊢
    exact takes_of_ongoing (by rw [h]; rfl)
  case ordered =>
    rw [hprevious]
    exact hcovers.lastSpan_ordered (hread k) fun t ht => read_more ht
  case onward =>
    rw [hprevious, hprevious]
    exact hcovers.lastSpan_onward (hread (k + 1)) (takes_ofLine _).more

/-- A parse ends after no more steps than the text has bytes, and one. -/
theorem steps_end (source : List UInt8) (settings : Settings) (table? : Option SymbolTable) :
    (Parse.step^[source.length + 1] (opened source settings table?)).phase.isTerminal := by
  by_contra hongoing
  obtain ⟨-, hsteps⟩ := read_of_ongoing (Bool.not_eq_true _ ▸ hongoing)
  have hcovers := covers_tokenize source
  have hread : (opened source settings table?).read (source.length + 1) <+: tokenize source :=
    (opened_start source settings table?).2.2 ▸ read_begins _ _
  have hlength := hcovers.length_le hread fun t ht => read_more ht
  omega

end Parse

/-- At each of its steps a parse moves over tokens of one line in their order, with a newline
at most as the last one, and over one at least unless the step ends it. In between it stands
at the last token that it moved over, whose span is in order, and it never goes back. It comes
to its end after no more steps than the text has bytes, and one. -/
theorem parse_paced (source : List UInt8) (settings : Settings) (table? : Option SymbolTable) :
    (∀ k, (Parse.opened source settings table?).Paced k) ∧
      ∃ k ≤ source.length + 1,
        (∀ j < k, ¬ (Parse.step^[j] (.opened source settings table?)).phase.isTerminal) ∧
        (Parse.step^[k] (.opened source settings table?)).phase.isTerminal ∧
        Parse.step^[k] (.opened source settings table?) =
          (Parse.opened source settings table?).run := by
  refine ⟨Parse.steps_paced source settings table?, ?_⟩
  have hends : ∃ k, (Parse.step^[k] (.opened source settings table?)).phase.isTerminal :=
    ⟨_, Parse.steps_end source settings table?⟩
  refine ⟨Nat.find hends, ?_, ?_, Nat.find_spec hends, Parse.run_of_steps (Nat.find_spec hends)⟩
  · exact Nat.find_min' hends (Parse.steps_end source settings table?)
  · exact fun j hj => Nat.find_min hends hj

end LabelGraph
