import LabelGraph.Proofs.Parse.Course
import LabelGraph.Proofs.Token.Order

/-!
The token of a reference belongs to its reference alone. No other action of the script
is about that token, so what stands at its place in the end comes from the reference.
-/

namespace LabelGraph

def Place.held : Place → List Token
  | .afterName word => [word]
  | _ => []

def Action.IsRefer : Action → Prop
  | .refer _ _ => True
  | _ => False

namespace Move

/-- The move is about its own token and the one in hand. It refers only with the token
that it takes, and does nothing else with it. -/
def Orderly (held : List Token) (t : Token) : Move → Prop
  | take before after next =>
    (∀ a ∈ before, ¬ a.IsRefer) ∧ (∀ a ∈ before ++ after, a.tokens ⊆ held ++ [t]) ∧
      next.held.Sublist [t] ∧
      ∀ a ∈ after, a.IsRefer → a.tokens = [t] ∧ t.kind = .identifier ∧ after = [a] ∧
        next.held = [] ∧ ∀ b ∈ before, b.tokens ⊆ held
  | endLine before taken =>
    (∀ a ∈ before, ¬ a.IsRefer ∧ a.tokens ⊆ held ++ [t]) ∧ (taken = false → t.kind ≠ .identifier)
  | endText => True

section Orderly

variable {held : List Token} {t : Token}

theorem orderly_afterAction {a : Action} {move : Move} (ha : ¬ a.IsRefer)
    (htokens : a.tokens ⊆ held) (h : move.Orderly held t) :
    (move.afterAction a).Orderly held t := by
  have hmore : a.tokens ⊆ held ++ [t] := by
    intro u hu
    apply List.mem_append_left
    exact htokens hu
  cases move with
  | take before after next =>
    obtain ⟨hbefore, hall, hnext, hafter⟩ := h
    refine ⟨List.forall_mem_cons.2 ⟨ha, hbefore⟩, List.forall_mem_cons.2 ⟨hmore, hall⟩, hnext,
      ?_⟩
    intro b hb hrefer
    obtain ⟨htoken, hkind, hone, hheld, hrest⟩ := hafter b hb hrefer
    exact ⟨htoken, hkind, hone, hheld, List.forall_mem_cons.2 ⟨htokens, hrest⟩⟩
  | endLine before taken => exact ⟨List.forall_mem_cons.2 ⟨⟨ha, hmore⟩, h.1⟩, h.2⟩
  | endText => trivial

theorem orderly_passOver : (passOver t).Orderly held t := by
  unfold passOver
  split <;> simp_all [Orderly, Place.held]

theorem orderly_reject (wanted : Wanted) : (reject t wanted).Orderly held t := by
  unfold reject passOver
  split <;> simp_all [Orderly, afterAction, Place.held, Action.IsRefer, Action.tokens]

theorem orderly_finish : (finish t).Orderly held t := by
  unfold finish
  split
  · exact orderly_passOver
  · exact orderly_reject _

theorem orderly_operand : (operand t).Orderly held t := by
  unfold operand
  split
  all_goals
    first
    | exact orderly_reject _
    | simp_all [Orderly, Place.held, Action.IsRefer, Action.tokens]

theorem orderly_operands : (operands t).Orderly held t := by
  unfold operands
  split
  · exact orderly_passOver
  · exact orderly_operand

end Orderly

end Move

theorem held_afterDirective (directive : String) : (Place.afterDirective directive).held = [] := by
  unfold Place.afterDirective
  split
  · rfl
  · split <;> rfl

theorem move_orderly (place : Place) (t : Token) : (place.move t).Orderly place.held t := by
  cases place with
  | item =>
    simp only [Place.move]
    split
    case h_6 =>
      simp [Move.Orderly, held_afterDirective, Action.IsRefer, Action.tokens]
    all_goals
      first
      | exact Move.orderly_reject _
      | simp_all [Move.Orderly, Place.held, Action.IsRefer, Action.tokens]
  | afterName word =>
    simp only [Place.move]
    split
    · simp [Move.Orderly, Place.held, Action.IsRefer, Action.tokens]
    · exact Move.orderly_afterAction (by simp [Action.IsRefer])
        (by simp [Action.tokens, Place.held]) Move.orderly_operands
  | operands => exact Move.orderly_operands
  | operand => exact Move.orderly_operand
  | recovery => exact Move.orderly_passOver
  | name declares =>
    simp only [Place.move]
    cases declares <;> split
    all_goals
      first
      | exact Move.orderly_reject _
      | simp [Move.Orderly, Place.held, Action.IsRefer, Action.tokens]
  | _ =>
    simp only [Place.move]
    split
    all_goals
      first
      | exact Move.orderly_reject _
      | exact Move.orderly_finish
      | simp_all [Move.Orderly, Place.held, Action.IsRefer, Action.tokens]

/-! The script. -/

def Action.Apart (a b : Action) : Prop := ∀ pos ∈ a.starts, pos ∉ b.starts

theorem apart_of_tokens {a b : Action}
    (h : ∀ t ∈ a.tokens, ∀ u ∈ b.tokens, t.Before u ∨ u.Before t) : a.Apart b := by
  intro pos hpos hpos'
  obtain ⟨t, ht, rfl⟩ := List.mem_map.1 hpos
  obtain ⟨u, hu, hstart⟩ := List.mem_map.1 hpos'
  rcases h t ht u hu with hbefore | hbefore
  · exact hbefore.start_ne hstart.symm
  · exact hbefore.start_ne hstart

/-- Where one of the two events is a reference, they are about different tokens. -/
def Event.Apart (e f : Event) : Prop :=
  ∀ a b, e = .perform a → f = .perform b → a.IsRefer ∨ b.IsRefer → a.Apart b

section Script

variable {place : Place} {tokens : List Token}

theorem here_subset (held : List Token) (t : Token) (rest : List Token) :
    held ++ [t] ⊆ held ++ t :: rest :=
  (List.Sublist.append_left (List.singleton_sublist.2 (List.mem_cons_self ..)) held).subset

theorem rest_subset (held : List Token) (t : Token) (rest : List Token) :
    rest ⊆ held ++ t :: rest :=
  fun _ hu => List.mem_append_right _ (List.mem_cons_of_mem t hu)

/-- Every action is about the token in hand or a token still to come. -/
theorem script_tokens {a : Action} (h : .perform a ∈ (script place tokens).1) :
    a.tokens ⊆ place.held ++ tokens := by
  induction place, tokens using script_induct with
  | nil place =>
    rw [script_nil] at h
    cases h
  | corrupt place t rest ht =>
    rw [script_corrupt ht] at h
    cases h
  | take place t rest before after next ht hmove ih =>
    have horder := move_orderly place t
    rw [hmove] at horder
    obtain ⟨-, hall, hnext, -⟩ := horder
    rw [script_take ht hmove] at h
    have hcases : a ∈ before ++ after ∨ .perform a ∈ (script next rest).1 := by
      simpa [or_assoc] using h
    rcases hcases with ha | ha
    · exact List.Subset.trans (hall a ha) (here_subset place.held t rest)
    · refine List.Subset.trans (ih ha) (List.append_subset.2 ⟨?_, ?_⟩)
      · exact List.Subset.trans hnext.subset (by simp)
      · exact rest_subset place.held t rest
  | newline place t rest before ht hmove ih =>
    have horder := move_orderly place t
    rw [hmove] at horder
    rw [script_newline ht hmove] at h
    have hcases : a ∈ before ∨ .perform a ∈ (script .item rest).1 := by simpa using h
    rcases hcases with ha | ha
    · exact List.Subset.trans (horder.1 a ha).2 (here_subset place.held t rest)
    · exact List.Subset.trans (ih ha) (rest_subset place.held t rest)
  | leave place t rest before ht hmove ih =>
    have horder := move_orderly place t
    rw [hmove] at horder
    rw [script_leave ht hmove] at h
    have hcases : a ∈ before ∨ .perform a ∈ (script .item (t :: rest)).1 := by simpa using h
    rcases hcases with ha | ha
    · exact List.Subset.trans (horder.1 a ha).2 (here_subset place.held t rest)
    · exact List.Subset.trans (ih ha) (List.subset_append_right _ _)
  | endText place t rest ht hmove =>
    rw [script_endText ht hmove] at h
    cases h

/-- A reference is made with an identifier still to come. -/
theorem script_refers {a : Action} (h : .perform a ∈ (script place tokens).1) (ha : a.IsRefer) :
    ∃ t ∈ tokens, a.tokens = [t] ∧ t.kind = .identifier := by
  induction place, tokens using script_induct with
  | nil place =>
    rw [script_nil] at h
    cases h
  | corrupt place t rest ht =>
    rw [script_corrupt ht] at h
    cases h
  | take place t rest before after next ht hmove ih =>
    have horder := move_orderly place t
    rw [hmove] at horder
    obtain ⟨hbefore, -, -, hafter⟩ := horder
    rw [script_take ht hmove] at h
    have hcases : a ∈ before ∨ a ∈ after ∨ .perform a ∈ (script next rest).1 := by simpa using h
    rcases hcases with hmem | hmem | hmem
    · exact absurd ha (hbefore a hmem)
    · obtain ⟨htoken, hkind, -⟩ := hafter a hmem ha
      exact ⟨t, List.mem_cons_self .., htoken, hkind⟩
    · exact (ih hmem).imp fun _ => And.imp_left (List.mem_cons_of_mem t)
  | newline place t rest before ht hmove ih =>
    have horder := move_orderly place t
    rw [hmove] at horder
    rw [script_newline ht hmove] at h
    have hcases : a ∈ before ∨ .perform a ∈ (script .item rest).1 := by simpa using h
    rcases hcases with hmem | hmem
    · exact absurd ha (horder.1 a hmem).1
    · exact (ih hmem).imp fun _ => And.imp_left (List.mem_cons_of_mem t)
  | leave place t rest before ht hmove ih =>
    have horder := move_orderly place t
    rw [hmove] at horder
    rw [script_leave ht hmove] at h
    have hcases : a ∈ before ∨ .perform a ∈ (script .item (t :: rest)).1 := by simpa using h
    rcases hcases with hmem | hmem
    · exact absurd ha (horder.1 a hmem).1
    · exact ih hmem
  | endText place t rest ht hmove =>
    rw [script_endText ht hmove] at h
    cases h

theorem pairwise_apart {actions : List Action} (h : ∀ a ∈ actions, ¬ a.IsRefer) :
    (actions.map Event.perform).Pairwise Event.Apart := by
  apply List.pairwise_map.2
  apply List.pairwise_iff_forall_sublist.2
  intro _ _ hsub a b ha hb hrefer
  cases ha
  cases hb
  have hmem := hsub.subset
  rcases hrefer with hrefer | hrefer
  · exact absurd hrefer (h _ (hmem (List.mem_cons_self ..)))
  · exact absurd hrefer (h _ (hmem (List.mem_cons_of_mem _ (List.mem_cons_self ..))))

theorem apart_consume (e : Event) (t : Token) : e.Apart (.consume t) := fun _ _ _ h => nomatch h

theorem apart_nextLine (e : Event) (rest : List Token) : e.Apart (.nextLine rest) :=
  fun _ _ _ h => nomatch h

theorem consume_apart (t : Token) (f : Event) : (Event.consume t).Apart f := fun _ _ h => nomatch h

theorem nextLine_apart (rest : List Token) (f : Event) : (Event.nextLine rest).Apart f :=
  fun _ _ h => nomatch h

theorem before_of_ordered {held rest : List Token} {t : Token}
    (h : (held ++ t :: rest).Pairwise Token.Before) :
    ∀ u ∈ held ++ [t], ∀ v ∈ rest, u.Before v := by
  obtain ⟨-, hrest, hheld⟩ := List.pairwise_append.1 h
  intro u hu v hv
  rcases List.mem_append.1 hu with hu | hu
  · apply hheld u hu v
    exact List.mem_cons_of_mem t hv
  · rw [List.mem_singleton.1 hu]
    exact (List.pairwise_cons.1 hrest).1 v hv

/-- Actions that refer to nothing are apart from the references behind them. -/
theorem apart_script (place : Place) (tokens : List Token) {actions : List Action}
    {behind : List Token}
    (hactions : ∀ a ∈ actions, ¬ a.IsRefer ∧ a.tokens ⊆ behind)
    (hbefore : ∀ t ∈ behind, ∀ u ∈ tokens, u.kind = .identifier → t.Before u) :
    ∀ e ∈ actions.map Event.perform, ∀ f ∈ (script place tokens).1, e.Apart f := by
  intro e he f hf a b ha hb hrefer
  subst ha hb
  obtain ⟨a, hmem, heq⟩ := List.mem_map.1 he
  cases heq
  obtain ⟨hnot, htokens⟩ := hactions a hmem
  obtain ⟨u, hu, htoken, hkind⟩ := script_refers hf (hrefer.resolve_left hnot)
  apply apart_of_tokens
  intro t ht v hv
  left
  rw [htoken, List.mem_singleton] at hv
  rw [hv]
  exact hbefore t (htokens ht) u hu hkind

/-- A reference is made when its token is taken, by the last action there. -/
theorem refer_apart {t : Token} {rest : List Token} {before : List Action} {a : Action}
    {next : Place} (h : (place.held ++ t :: rest).Pairwise Token.Before) (htoken : a.tokens = [t])
    (hnext : next.held = []) (hbefore : ∀ b ∈ before, b.tokens ⊆ place.held) :
    (∀ f ∈ (script next rest).1, (Event.perform a).Apart f) ∧
      ∀ e ∈ before.map Event.perform, e.Apart (.perform a) := by
  obtain ⟨-, hrest, hheld⟩ := List.pairwise_append.1 h
  constructor
  · intro f hf b c hb hc _
    cases hb
    subst hc
    apply apart_of_tokens
    intro u hu v hv
    left
    have hbehind := script_tokens hf hv
    rw [hnext, List.nil_append] at hbehind
    rw [htoken, List.mem_singleton] at hu
    rw [hu]
    exact (List.pairwise_cons.1 hrest).1 v hbehind
  · intro e he b c hb hc _
    cases hc
    subst hb
    obtain ⟨b, hmem, heq⟩ := List.mem_map.1 he
    cases heq
    apply apart_of_tokens
    intro u hu v hv
    left
    rw [htoken, List.mem_singleton] at hv
    rw [hv]
    exact hheld u (hbefore b hmem hu) t (List.mem_cons_self ..)

theorem take_apart {t : Token} {rest : List Token} {before after : List Action} {next : Place}
    (horder : (Move.take before after next).Orderly place.held t)
    (h : (place.held ++ t :: rest).Pairwise Token.Before)
    (hmore : (script next rest).1.Pairwise Event.Apart) :
    (after.map Event.perform ++ (script next rest).1).Pairwise Event.Apart ∧
      ∀ e ∈ before.map Event.perform, ∀ f ∈ after.map Event.perform, e.Apart f := by
  obtain ⟨hbefore, hall, -, hafter⟩ := horder
  by_cases hrefer : ∃ a ∈ after, a.IsRefer
  · obtain ⟨a, ha, hrefer⟩ := hrefer
    obtain ⟨htoken, -, rfl, hnext, htokens⟩ := hafter a ha hrefer
    obtain ⟨hbehind, hfirst⟩ := refer_apart h htoken hnext htokens
    refine ⟨List.pairwise_cons.2 ⟨hbehind, hmore⟩, ?_⟩
    intro e he f hf
    rw [List.mem_singleton.1 hf]
    exact hfirst e he
  · have hnot : ∀ a ∈ after, ¬ a.IsRefer := by
      intro a ha hrefer'
      exact hrefer ⟨a, ha, hrefer'⟩
    have hbehind := apart_script next rest
      (fun a ha => ⟨hnot a ha, hall a (List.mem_append_right _ ha)⟩)
      fun u hu v hv _ => before_of_ordered h u hu v hv
    refine ⟨List.pairwise_append.2 ⟨pairwise_apart hnot, hmore, hbehind⟩, ?_⟩
    intro e he f hf
    have hpair := pairwise_apart (List.forall_mem_append.2 ⟨hbefore, hnot⟩)
    rw [List.map_append] at hpair
    exact (List.pairwise_append.1 hpair).2.2 e he f hf

/-- Of two actions one of which is a reference, each is about tokens of its own. -/
theorem script_apart (h : (place.held ++ tokens).Pairwise Token.Before) :
    (script place tokens).1.Pairwise Event.Apart := by
  induction place, tokens using script_induct with
  | nil place =>
    rw [script_nil]
    exact .nil
  | corrupt place t rest ht =>
    rw [script_corrupt ht]
    exact .nil
  | take place t rest before after next ht hmove ih =>
    have horder := move_orderly place t
    rw [hmove] at horder
    obtain ⟨-, hrest, -⟩ := List.pairwise_append.1 h
    have hmore := ih (hrest.sublist (horder.2.2.1.append (List.Sublist.refl rest)))
    have hlast := take_apart horder h hmore
    obtain ⟨hbefore, hall, -, -⟩ := horder
    have hbehind := apart_script next rest
      (fun a ha => ⟨hbefore a ha, hall a (List.mem_append_left _ ha)⟩)
      fun u hu v hv _ => before_of_ordered h u hu v hv
    rw [script_take ht hmove]
    refine List.pairwise_append.2 ⟨pairwise_apart hbefore, ?_, ?_⟩
    · exact List.pairwise_cons.2 ⟨fun f _ => consume_apart t f, hlast.1⟩
    · intro e he f hf
      rcases List.mem_cons.1 hf with rfl | hf
      · exact apart_consume e t
      · rcases List.mem_append.1 hf with hf | hf
        · exact hlast.2 e he f hf
        · exact hbehind e he f hf
  | newline place t rest before ht hmove ih =>
    have horder := move_orderly place t
    rw [hmove] at horder
    obtain ⟨-, hrest, -⟩ := List.pairwise_append.1 h
    have hbehind := fun u hu v hv (_ : v.kind = .identifier) => before_of_ordered h u hu v hv
    have hbeforeMore := apart_script .item rest horder.1 hbehind
    rw [script_newline ht hmove, List.append_assoc]
    refine List.pairwise_append.2 ⟨pairwise_apart fun a ha => (horder.1 a ha).1, ?_, ?_⟩
    · refine List.pairwise_cons.2 ⟨fun f _ => consume_apart t f, ?_⟩
      exact List.pairwise_cons.2
        ⟨fun f _ => nextLine_apart rest f, ih (List.pairwise_cons.1 hrest).2⟩
    · intro e he f hf
      rcases List.mem_cons.1 hf with rfl | hf
      · exact apart_consume e t
      · rcases List.mem_cons.1 hf with rfl | hf
        · exact apart_nextLine e rest
        · exact hbeforeMore e he f hf
  | leave place t rest before ht hmove ih =>
    have horder := move_orderly place t
    rw [hmove] at horder
    obtain ⟨-, hrest, -⟩ := List.pairwise_append.1 h
    -- The token that is left is no identifier, so no reference behind is made with it.
    have hbehind : ∀ u ∈ place.held ++ [t], ∀ v ∈ t :: rest, v.kind = .identifier → u.Before v := by
      intro u hu v hv hkind
      rcases List.mem_cons.1 hv with rfl | hv
      · exact absurd hkind (horder.2 rfl)
      · exact before_of_ordered h u hu v hv
    have hbeforeMore := apart_script .item (t :: rest) horder.1 hbehind
    rw [script_leave ht hmove]
    refine List.pairwise_append.2 ⟨pairwise_apart fun a ha => (horder.1 a ha).1, ?_, ?_⟩
    · exact List.pairwise_cons.2 ⟨fun f _ => nextLine_apart _ f, ih hrest⟩
    · intro e he f hf
      rcases List.mem_cons.1 hf with rfl | hf
      · exact apart_nextLine e _
      · exact hbeforeMore e he f hf
  | endText place t rest ht hmove =>
    rw [script_endText ht hmove]
    exact .nil

end Script

/-- No other action is at the place of a reference. -/
theorem reference_apart {source : List UInt8} {first second : List Event} {name : Token}
    {d : Direction}
    (h : (script .item (tokenize source)).1 = first ++ .perform (.refer name d) :: second) :
    ¬ Parse.touched first name.span.start ∧ ¬ Parse.touched second name.span.start := by
  have happart : (script .item (tokenize source)).1.Pairwise Event.Apart :=
    script_apart (tokenize_ordered source)
  rw [h] at happart
  obtain ⟨-, hsecond, hfirst⟩ := List.pairwise_append.1 happart
  have hstart : name.span.start ∈ (Action.refer name d).starts := List.mem_cons_self ..
  constructor
  · rintro ⟨a, ha, hpos⟩
    exact hfirst _ ha _ (List.mem_cons_self ..) a _ rfl rfl (.inr trivial) _ hpos hstart
  · rintro ⟨a, ha, hpos⟩
    exact (List.pairwise_cons.1 hsecond).1 _ ha _ a rfl rfl (.inl trivial) _ hstart hpos

end LabelGraph
