import LabelGraph.Parse.Run

/-!
What a parse does, read off its tokens. No action decides how the reading goes on,
so the tokens alone give the list of all actions of a text in their order, and how
the text ends.
-/

namespace LabelGraph

/-- One thing that happens while a text is read. -/
inductive Event where
  | perform (a : Action)
  | consume (t : Token)
  /-- A line ends in front of these tokens, and the next one starts. -/
  | nextLine (rest : List Token)
deriving DecidableEq, Repr

inductive Stop where
  | line (rest : List Token)
  | text
  | corrupt (span : Span)
deriving DecidableEq, Repr

def Place.line (place : Place) : List Token → List Event × Stop
  | [] => ([], .text)
  | t :: rest =>
    if t.kind = .corrupt then ([], .corrupt t.span)
    else
      match place.move t with
      | .take before after next =>
        let (events, stop) := next.line rest
        (before.map .perform ++ .consume t :: (after.map .perform ++ events), stop)
      | .endLine before true => (before.map .perform ++ [.consume t], .line rest)
      | .endLine before false => (before.map .perform, .line (t :: rest))
      | .endText => ([], .text)

theorem Place.line_length {place : Place} {tokens rest : List Token} {events : List Event}
    (h : place.line tokens = (events, .line rest)) :
    rest.length ≤ tokens.length ∧ (place = .item → rest.length < tokens.length) := by
  induction tokens generalizing place events with
  | nil => cases h
  | cons t tokens ih =>
      rw [line] at h
      split at h
      · cases h
      · cases hmove : place.move t with
        | take before after next =>
          rw [hmove] at h
          obtain ⟨-, hstop⟩ := Prod.mk.inj h
          have := (ih (Prod.ext rfl hstop)).1
          simp only [List.length_cons]
          omega
        | endLine before taken =>
          rw [hmove] at h
          cases taken with
          | true =>
            cases h
            simp
          | false =>
            cases h
            refine ⟨Nat.le_refl _, ?_⟩
            rintro rfl
            exact absurd hmove (Place.item_takes t _)
        | endText =>
          rw [hmove] at h
          cases h

def script (place : Place) (tokens : List Token) : List Event × Stop :=
  match _h : place.line tokens with
  | (events, .line rest) =>
    let (more, stop) := script .item rest
    (events ++ .nextLine rest :: more, stop)
  | done => done
termination_by (tokens.length, if place = .item then 0 else 1)
decreasing_by
  have hlength := Place.line_length _h
  simp only [if_true]
  by_cases hplace : place = .item
  · exact .left _ _ (hlength.2 hplace)
  · rcases Nat.lt_or_eq_of_le hlength.1 with hlt | heq
    · exact .left _ _ hlt
    · rw [heq, if_neg hplace]
      exact .right _ Nat.one_pos

/-! The actions of a script. -/

def performed (events : List Event) : List Action :=
  events.filterMap fun
    | .perform a => some a
    | _ => none

@[simp] theorem mem_performed {a : Action} {events : List Event} :
    a ∈ performed events ↔ .perform a ∈ events := by
  rw [performed, List.mem_filterMap]
  constructor
  · rintro ⟨e, he, ha⟩
    cases e with
    | perform b =>
      cases ha
      exact he
    | consume t => cases ha
    | nextLine rest => cases ha
  · intro ha
    exact ⟨_, ha, rfl⟩

@[simp] theorem performed_append (first second : List Event) :
    performed (first ++ second) = performed first ++ performed second :=
  List.filterMap_append

@[simp] theorem performed_perform (actions : List Action) :
    performed (actions.map .perform) = actions := by
  rw [performed, List.filterMap_map]
  exact List.filterMap_some

@[simp] theorem performed_consume (t : Token) (events : List Event) :
    performed (.consume t :: events) = performed events := rfl

@[simp] theorem performed_nextLine (rest : List Token) (events : List Event) :
    performed (.nextLine rest :: events) = performed events := rfl

theorem performed_of_idle {e : Event} (he : ∀ a, e ≠ .perform a) (events : List Event) :
    performed (e :: events) = performed events := by
  cases e with
  | perform a => exact absurd rfl (he a)
  | _ => rfl

/-! The script, token by token. -/

section Equations

variable {place next : Place} {t : Token} {rest : List Token} {before after : List Action}

theorem script_of_line {tokens : List Token} {events : List Event}
    (h : place.line tokens = (events, .line rest)) :
    script place tokens =
      (events ++ .nextLine rest :: (script .item rest).1, (script .item rest).2) := by
  rw [script]
  split
  · next h' =>
    rw [h] at h'
    cases h'
    rfl
  · next hother => exact absurd h (hother _ _)

theorem script_of_stop {tokens : List Token} {events : List Event} {stop : Stop}
    (h : place.line tokens = (events, stop)) (hstop : ∀ rest, stop ≠ .line rest) :
    script place tokens = (events, stop) := by
  rw [script]
  split
  · next h' =>
    rw [h] at h'
    cases h'
    exact absurd rfl (hstop _)
  · exact h

/-- A text starts with its first line. -/
theorem script_begins (place : Place) (tokens : List Token) :
    (place.line tokens).1 <+: (script place tokens).1 := by
  cases hline : place.line tokens with
  | mk events stop =>
    cases stop with
    | line rest =>
      rw [script_of_line hline]
      exact List.prefix_append ..
    | text => simp only [script_of_stop hline (by simp), List.prefix_rfl]
    | corrupt span => simp only [script_of_stop hline (by simp), List.prefix_rfl]

@[simp] theorem script_nil : script place [] = ([], .text) :=
  script_of_stop rfl (by simp)

theorem script_corrupt (ht : t.kind = .corrupt) :
    script place (t :: rest) = ([], .corrupt t.span) :=
  script_of_stop (by rw [Place.line, if_pos ht]) (by simp)

theorem script_take (ht : t.kind ≠ .corrupt) (hmove : place.move t = .take before after next) :
    script place (t :: rest) =
      (before.map .perform ++ .consume t :: (after.map .perform ++ (script next rest).1),
        (script next rest).2) := by
  cases hline : next.line rest with
  | mk events stop =>
    have hcons : place.line (t :: rest) =
        (before.map .perform ++ .consume t :: (after.map .perform ++ events), stop) := by
      rw [Place.line, if_neg ht, hmove]
      simp only [hline]
    cases stop with
    | line more =>
      rw [script_of_line hcons, script_of_line hline]
      simp
    | text => rw [script_of_stop hcons (by simp), script_of_stop hline (by simp)]
    | corrupt span => rw [script_of_stop hcons (by simp), script_of_stop hline (by simp)]

theorem script_newline (ht : t.kind ≠ .corrupt) (hmove : place.move t = .endLine before true) :
    script place (t :: rest) =
      (before.map .perform ++ [.consume t] ++ .nextLine rest :: (script .item rest).1,
        (script .item rest).2) :=
  script_of_line (by rw [Place.line, if_neg ht, hmove])

theorem script_leave (ht : t.kind ≠ .corrupt) (hmove : place.move t = .endLine before false) :
    script place (t :: rest) =
      (before.map .perform ++ .nextLine (t :: rest) :: (script .item (t :: rest)).1,
        (script .item (t :: rest)).2) :=
  script_of_line (by rw [Place.line, if_neg ht, hmove])

theorem script_endText (ht : t.kind ≠ .corrupt) (hmove : place.move t = .endText) :
    script place (t :: rest) = ([], .text) :=
  script_of_stop (by rw [Place.line, if_neg ht, hmove]) (by simp)

end Equations

/-- Induction along the reading of a text. -/
@[elab_as_elim]
theorem script_induct {motive : Place → List Token → Prop}
    (nil : ∀ place, motive place [])
    (corrupt : ∀ place t rest, t.kind = .corrupt → motive place (t :: rest))
    (take : ∀ place t rest before after next, t.kind ≠ .corrupt →
      place.move t = .take before after next → motive next rest → motive place (t :: rest))
    (newline : ∀ place t rest before, t.kind ≠ .corrupt → place.move t = .endLine before true →
      motive .item rest → motive place (t :: rest))
    (leave : ∀ place t rest before, t.kind ≠ .corrupt → place.move t = .endLine before false →
      motive .item (t :: rest) → motive place (t :: rest))
    (endText : ∀ place t rest, t.kind ≠ .corrupt → place.move t = .endText →
      motive place (t :: rest))
    (place : Place) (tokens : List Token) : motive place tokens := by
  induction tokens generalizing place with
  | nil => exact nil place
  | cons t rest ih =>
      by_cases ht : t.kind = .corrupt
      · exact corrupt place t rest ht
      have hline (place : Place)
          (hleave : ∀ before, place.move t = .endLine before false → motive place (t :: rest)) :
          motive place (t :: rest) := by
        cases hmove : place.move t with
        | take before after next => exact take place t rest before after next ht hmove (ih next)
        | endText => exact endText place t rest ht hmove
        | endLine before taken =>
          cases taken with
          | true => exact newline place t rest before ht hmove (ih .item)
          | false => exact hleave before hmove
      -- A line that leaves its last token starts anew there, and takes it then.
      have hitem := hline .item fun before hmove => absurd hmove (Place.item_takes t before)
      exact hline place fun before hmove => leave place t rest before ht hmove hitem

theorem script_ne_line (place : Place) (tokens rest : List Token) :
    (script place tokens).2 ≠ .line rest := by
  induction place, tokens using script_induct with
  | nil place =>
    rw [script_nil]
    simp
  | corrupt place t _ ht =>
    rw [script_corrupt ht]
    simp
  | take place t _ before after next ht hmove ih =>
    rw [script_take ht hmove]
    exact ih
  | newline place t _ before ht hmove ih =>
    rw [script_newline ht hmove]
    exact ih
  | leave place t _ before ht hmove ih =>
    rw [script_leave ht hmove]
    exact ih
  | endText place t _ ht hmove =>
    rw [script_endText ht hmove]
    simp

/-- No move carries more than two actions. -/
theorem move_length (place : Place) (t : Token) :
    match place.move t with
    | .take before after _ => before.length + after.length ≤ 2
    | .endLine before _ => before.length ≤ 2
    | .endText => True := by
  cases place <;> cases ht : t.kind <;>
    simp [Place.move, ht, Move.operands, Move.operand, Move.finish, Move.passOver, Move.reject,
      Move.afterAction, Kind.isBoundary]

theorem script_length (place : Place) (tokens : List Token) :
    (script place tokens).1.length ≤ 7 * tokens.length + if place = .item then 0 else 3 := by
  induction place, tokens using script_induct with
  | nil place =>
    rw [script_nil]
    exact Nat.zero_le _
  | corrupt place t rest ht =>
    rw [script_corrupt ht]
    exact Nat.zero_le _
  | take place t rest before after next ht hmove ih =>
    have hactions := move_length place t
    rw [hmove] at hactions
    rw [script_take ht hmove]
    simp only [List.length_append, List.length_map, List.length_cons]
    split at ih <;> omega
  | newline place t rest before ht hmove ih =>
    have hactions := move_length place t
    rw [hmove] at hactions
    rw [script_newline ht hmove]
    simp only [List.length_append, List.length_map, List.length_cons, List.length_nil]
    rw [if_pos rfl] at ih
    omega
  | leave place t rest before ht hmove ih =>
    have hactions := move_length place t
    rw [hmove] at hactions
    have hplace : place ≠ .item := by
      rintro rfl
      exact Place.item_takes t before hmove
    rw [script_leave ht hmove, if_neg hplace]
    simp only [List.length_append, List.length_map, List.length_cons]
    rw [if_pos rfl, List.length_cons] at ih
    omega
  | endText place t rest ht hmove =>
    rw [script_endText ht hmove]
    exact Nat.zero_le _

/-- Only a corrupt token stops the reading before the end of the text. -/
theorem corrupt_of_stop {place : Place} {tokens : List Token} {span : Span}
    (h : (script place tokens).2 = .corrupt span) :
    ∃ t ∈ tokens, t.kind = .corrupt ∧ t.span = span := by
  induction place, tokens using script_induct with
  | nil place =>
    rw [script_nil] at h
    cases h
  | corrupt place t rest ht =>
    rw [script_corrupt ht] at h
    cases h
    exact ⟨t, List.mem_cons_self .., ht, rfl⟩
  | take place t rest before after next ht hmove ih =>
    rw [script_take ht hmove] at h
    exact (ih h).imp fun _ => And.imp_left (List.mem_cons_of_mem t)
  | newline place t rest before ht hmove ih =>
    rw [script_newline ht hmove] at h
    exact (ih h).imp fun _ => And.imp_left (List.mem_cons_of_mem t)
  | leave place t rest before ht hmove ih =>
    rw [script_leave ht hmove] at h
    exact ih h
  | endText place t rest ht hmove =>
    rw [script_endText ht hmove] at h
    cases h

end LabelGraph
