import LabelGraph.Proofs.Parse.Location

/-!
The order of the actions of a script. They come in the order of the tokens they are about: what
a line still has in hand is done first, and everything else with the token that is taken. Of
one token no more than one reference is made.
-/

namespace LabelGraph

open Parse

def Action.first : Action → Token
  | .intern word => word
  | .declareLabel name _ => name
  | .declareExternal name => name
  | .refer name _ => name
  | .openBlock brace => brace
  | .closeBlock brace => brace
  | .reject t _ => t

theorem Action.first_mem (a : Action) : a.first ∈ a.tokens := by
  cases a <;> exact List.mem_cons_self

/-! The actions of a move. -/

namespace Move

def actions : Move → List Action
  | take before after _ => before ++ after
  | endLine before _ => before
  | endText => []

theorem tail_afterAction (m : Move) (a : Action) : (m.afterAction a).actions.tail = m.actions := by
  cases m <;> rfl

variable {t : Token}

theorem passOver_first : ∀ a ∈ (passOver t).actions, a.first = t := by
  unfold passOver
  split <;> exact List.forall_mem_nil _

theorem reject_first (wanted : Wanted) : ∀ a ∈ (reject t wanted).actions, a.first = t := by
  unfold reject passOver
  split <;> exact List.forall_mem_singleton.2 rfl

theorem finish_first : ∀ a ∈ (finish t).actions, a.first = t := by
  unfold finish
  split
  · exact passOver_first
  · exact reject_first _

theorem operand_first : ∀ a ∈ (operand t).actions, a.first = t := by
  unfold operand
  split
  case h_1 => exact List.forall_mem_singleton.2 rfl
  all_goals
    first
    | exact reject_first _
    | exact List.forall_mem_nil _

theorem operands_first : ∀ a ∈ (operands t).actions, a.first = t := by
  unfold operands
  split
  · exact passOver_first
  · exact operand_first

end Move

/-- Whatever a line has in hand, all it does at a token behind the first action is about that
token. -/
theorem move_first (place : Place) (t : Token) :
    ∀ a ∈ (place.move t).actions.tail, a.first = t := by
  have htail {m : Move} (h : ∀ a ∈ m.actions, a.first = t) : ∀ a ∈ m.actions.tail, a.first = t :=
    fun a ha => h a (List.mem_of_mem_tail ha)
  have hone (a : Action) : ∀ b ∈ [a].tail, b.first = t := List.forall_mem_nil _
  cases place with
  | afterName word =>
    simp only [Place.move]
    split
    · exact hone _
    · rw [Move.tail_afterAction]
      exact Move.operands_first
  | operands => exact htail Move.operands_first
  | operand => exact htail Move.operand_first
  | recovery => exact htail Move.passOver_first
  | _ =>
    simp only [Place.move]
    split
    all_goals
      first
      | exact htail (Move.reject_first _)
      | exact htail Move.finish_first
      | exact hone _
      | exact List.forall_mem_nil _

/-! The actions of a script. -/

/-- The first action is about a token that does not start behind that of the second one. -/
def Action.InTurn (a b : Action) : Prop := a.first.start ≤ b.first.start

/-- What is done at a token, and then what is done at this token or behind it. -/
theorem inTurn_append {held rest : List Token} {t : Token} {here later : List Action}
    (hordered : (held ++ t :: rest).Pairwise Token.Before)
    (hfirst : ∀ a ∈ here, a.first ∈ held ++ [t]) (htail : ∀ a ∈ here.tail, a.first = t)
    (hlater : ∀ a ∈ later, a.first ∈ t :: rest) (hmore : later.Pairwise Action.InTurn) :
    (here ++ later).Pairwise Action.InTurn := by
  have hle : ∀ u ∈ held ++ [t], ∀ v ∈ t :: rest, u.start ≤ v.start := by
    obtain ⟨-, hrest, hheld⟩ := List.pairwise_append.1 hordered
    intro u hu v hv
    rcases List.mem_append.1 hu with hu | hu
    · exact Nat.le_of_lt (hheld u hu v hv)
    · rw [List.mem_singleton.1 hu]
      rcases List.mem_cons.1 hv with rfl | hv
      · exact Nat.le_refl _
      · exact Nat.le_of_lt ((List.pairwise_cons.1 hrest).1 v hv)
  have hlast : t ∈ held ++ [t] := List.mem_append_right _ (List.mem_singleton_self t)
  cases here with
  | nil => exact hmore
  | cons a tail =>
    have ha := hfirst a List.mem_cons_self
    refine List.pairwise_cons.2 ⟨fun b hb => hle _ ha _ ?_, List.pairwise_append.2 ⟨?_, hmore, ?_⟩⟩
    · rcases List.mem_append.1 hb with hb | hb
      · rw [htail b hb]
        exact List.mem_cons_self
      · exact hlater b hb
    · refine List.pairwise_of_forall_mem_list fun b hb c hc => ?_
      rw [Action.InTurn, htail b hb, htail c hc]
    · intro b hb c hc
      rw [Action.InTurn, htail b hb]
      exact hle t hlast _ (hlater c hc)

section Script

variable {place : Place} {tokens : List Token}

theorem script_inTurn (h : (place.held ++ tokens).Pairwise Token.Before) :
    (performed (script place tokens).1).Pairwise Action.InTurn := by
  have hlater (place : Place) (tokens : List Token) :
      ∀ a ∈ performed (script place tokens).1, a.first ∈ place.held ++ tokens :=
    fun a ha => script_tokens (mem_performed.1 ha) a.first_mem
  induction place, tokens using script_induct with
  | nil place =>
    rw [script_nil]
    exact .nil
  | corrupt place t rest ht =>
    rw [script_corrupt ht]
    exact .nil
  | take place t rest before after next ht hmove ih =>
    have horder := move_orderly place t
    have htail := move_first place t
    rw [hmove] at horder htail
    obtain ⟨-, hall, hnext, -⟩ := horder
    obtain ⟨-, hrest, -⟩ := List.pairwise_append.1 h
    have hmore := ih (hrest.sublist (hnext.append (List.Sublist.refl rest)))
    rw [script_take ht hmove]
    simp only [performed_append, performed_perform, performed_consume]
    rw [← List.append_assoc]
    refine inTurn_append h (fun a ha => hall a ha a.first_mem) htail (fun a ha => ?_) hmore
    exact (hnext.append (List.Sublist.refl rest)).subset (hlater next rest a ha)
  | newline place t rest before ht hmove ih =>
    have horder := move_orderly place t
    have htail := move_first place t
    rw [hmove] at horder htail
    obtain ⟨-, hrest, -⟩ := List.pairwise_append.1 h
    have hmore := ih (List.pairwise_cons.1 hrest).2
    rw [script_newline ht hmove, List.append_assoc]
    simp only [performed_append, performed_perform, List.singleton_append, performed_consume,
      performed_nextLine]
    refine inTurn_append h (fun a ha => (horder.1 a ha).2 a.first_mem) htail (fun a ha => ?_) hmore
    exact List.mem_cons_of_mem t (hlater .item rest a ha)
  | leave place t rest before ht hmove ih =>
    have horder := move_orderly place t
    have htail := move_first place t
    rw [hmove] at horder htail
    obtain ⟨-, hrest, -⟩ := List.pairwise_append.1 h
    rw [script_leave ht hmove]
    simp only [performed_append, performed_perform, performed_nextLine]
    exact inTurn_append h (fun a ha => (horder.1 a ha).2 a.first_mem) htail
      (hlater .item (t :: rest)) (ih hrest)
  | endText place t rest ht hmove =>
    rw [script_endText ht hmove]
    exact .nil

end Script

/-! Where the actions of a text are. -/

/-- The span starts with a token of the text and ends in the text, not in front of its start. -/
structure Span.Sits (source : List UInt8) (s : Span) : Prop where
  token : ∃ t ∈ tokenize source, s.start = t.span.start
  ordered : (s.start.compare s.stop).isLE
  offsets : s.start.offset ≤ s.stop.offset
  inside : s.stop.offset ≤ source.length

section Source

variable {source : List UInt8}

theorem Token.start_le_stop {t : Token} (ht : t ∈ tokenize source) : t.start ≤ t.stop := by
  have hcovers := covers_tokenize source
  by_cases heof : t.kind = .eof
  · obtain ⟨init, last, htokens, hinit, -, hspan, -⟩ := hcovers.ends
    rw [htokens] at ht
    rcases List.mem_append.1 ht with ht | ht
    · exact absurd heof (hinit t ht)
    · rw [List.mem_singleton.1 ht, Tiles.stop_of_point hspan]
  · exact Nat.le_of_lt (hcovers.filled t ht heof)

theorem Token.sits {t : Token} (ht : t ∈ tokenize source) : t.span.Sits source := by
  have hwithin := Token.within ht
  have hle := Token.start_le_stop ht
  refine ⟨⟨t, ht, rfl⟩, ?_, hle, hwithin.2.offset_le⟩
  rw [hwithin.1.compare_isLE hwithin.2]
  exact decide_eq_true hle

theorem Token.stop_le_start {t u : Token} (h : [t, u] <:+: tokenize source) : t.stop ≤ u.start := by
  have hpair : [t, u].Pairwise fun t u => t.stop ≤ u.start :=
    (covers_tokenize source).apart.sublist h.sublist
  exact (List.pairwise_cons.1 hpair).1 u (List.mem_singleton_self u)

/-- A name and the colon behind it, from the start of the name to the end of the colon. -/
theorem Token.join_eq {name colon : Token} (h : [name, colon] <:+: tokenize source) :
    name.span.join colon.span = { start := name.span.start, stop := colon.span.stop } := by
  have hname : name ∈ tokenize source := h.subset (by simp)
  have hcolon : colon ∈ tokenize source := h.subset (by simp)
  have hbefore := Token.stop_le_start h
  have hstart : name.start ≤ colon.start := Nat.le_trans (Token.start_le_stop hname) hbefore
  have hstop : name.stop ≤ colon.stop := Nat.le_trans hbefore (Token.start_le_stop hcolon)
  rw [Span.join, (Token.within hname).1.min_eq (Token.within hcolon).1,
    (Token.within hname).2.max_eq (Token.within hcolon).2]
  simp only [Token.start, Token.stop] at hstart hstop
  rw [if_pos hstart, if_pos hstop]

theorem Token.join_sits {name colon : Token} (h : [name, colon] <:+: tokenize source) :
    (name.span.join colon.span).Sits source := by
  have hname : name ∈ tokenize source := h.subset (by simp)
  have hcolon : colon ∈ tokenize source := h.subset (by simp)
  have hle : name.start ≤ colon.stop :=
    Nat.le_trans (Token.start_le_stop hname)
      (Nat.le_trans (Token.stop_le_start h) (Token.start_le_stop hcolon))
  rw [Token.join_eq h]
  refine ⟨⟨name, hname, rfl⟩, ?_, hle, (Token.within hcolon).2.offset_le⟩
  rw [(Token.within hname).1.compare_isLE (Token.within hcolon).2]
  exact decide_eq_true hle

/-- An action reports and fails where its first token starts. -/
theorem spans_sit {a : Action} (h : .perform a ∈ (script .item (tokenize source)).1) :
    ∀ s ∈ a.spans, s.Sits source ∧ s.start = a.first.span.start := by
  have htokens : a.tokens ⊆ tokenize source := script_tokens h
  have hstands := script_stands (by simp [Place.held]) h
  have htoken {t : Token} (ht : t ∈ a.tokens) : t.span.Sits source := Token.sits (htokens ht)
  cases a with
  | declareLabel name colon =>
    refine List.forall_mem_cons.2 ⟨⟨htoken List.mem_cons_self, rfl⟩, ?_⟩
    refine List.forall_mem_singleton.2 ⟨Token.join_sits hstands.1, ?_⟩
    rw [Token.join_eq hstands.1]
    rfl
  | _ => exact List.forall_mem_singleton.2 ⟨htoken List.mem_cons_self, rfl⟩

/-- References are made one after another. -/
theorem script_references (source : List UInt8) :
    (performed (script .item (tokenize source)).1).Pairwise fun a b =>
      a.IsRefer → b.IsRefer → a.first.start < b.first.start := by
  have hordered : (Place.item.held ++ tokenize source).Pairwise Token.Before :=
    tokenize_ordered source
  have hturn := script_inTurn hordered
  have hapart : (performed (script .item (tokenize source)).1).Pairwise fun a b =>
      a.IsRefer → a.Apart b := by
    refine List.pairwise_filterMap.2 ((script_apart hordered).imp ?_)
    intro e f hef a ha b hb hrefer
    cases e with
    | perform a' =>
      cases f with
      | perform b' =>
        cases ha
        cases hb
        exact hef _ _ rfl rfl (.inl hrefer)
      | _ => cases hb
    | _ => cases ha
  have hin : ∀ a ∈ performed (script .item (tokenize source)).1, a.first ∈ tokenize source :=
    fun a ha => script_tokens (mem_performed.1 ha) a.first_mem
  -- Actions in turn may still be about one token, but two references never are.
  refine (hturn.and hapart).imp_of_mem fun {a b} ha hb h hrefer _ => ?_
  refine Nat.lt_of_le_of_ne h.1 fun heq => ?_
  have hsame := tokenize_start_inj (hin a ha) (hin b hb) heq
  have hplace (c : Action) : c.first.span.start ∈ c.starts := List.mem_map_of_mem c.first_mem
  exact h.2 hrefer _ (hplace a) (hsame ▸ hplace b)

end Source

end LabelGraph
