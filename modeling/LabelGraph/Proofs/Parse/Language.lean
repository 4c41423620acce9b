import LabelGraph.Proofs.Parse.Grammar
import LabelGraph.Proofs.Parse.Script

/-!
The texts without an error. The reading of a text performs some actions and rejects no token
exactly if the tokens are a sequence of items of the grammar that stands for these actions.
-/

namespace LabelGraph

namespace Grammar

/-! The table, seen from the errors. -/

def NoReject (actions : List Action) : Prop := ∀ t wanted, .reject t wanted ∉ actions

theorem noReject_nil : NoReject [] := fun _ _ => List.not_mem_nil

@[simp] theorem noReject_append {first second : List Action} :
    NoReject (first ++ second) ↔ NoReject first ∧ NoReject second := by
  simp only [NoReject, List.mem_append, not_or, forall_and]

def before : Move → List Action
  | .take before _ _ => before
  | .endLine before _ => before
  | .endText => []

/-- The move leads into the statement without an error, or it rejects its token. -/
def Decides (t : Token) (move : Move) : Prop :=
  (∃ before after next, move = .take before after next ∧ NoReject before ∧ NoReject after ∧
      Deep next) ∨
    (∃ wanted, .reject t wanted ∈ before move) ∧ ∀ tokens as, ¬ Leads move tokens as

section Decides

variable {t : Token}

theorem decides_take {before after : List Action} {next : Place} (hbefore : NoReject before)
    (hafter : NoReject after) (hnext : Deep next) : Decides t (.take before after next) :=
  .inl ⟨before, after, next, rfl, hbefore, hafter, hnext⟩

theorem before_afterAction (a : Action) (m : Move) (hm : m ≠ .endText) :
    before (m.afterAction a) = a :: before m := by
  cases m with
  | endText => exact absurd rfl hm
  | _ => rfl

theorem decides_afterAction {a : Action} {move : Move} (ha : NoReject [a])
    (h : Decides t move) : Decides t (move.afterAction a) := by
  obtain ⟨before, after, next, rfl, hbefore, hafter, hnext⟩ | ⟨⟨wanted, hreject⟩, hleads⟩ := h
  · refine decides_take (fun u wanted hmem => ?_) hafter hnext
    rcases List.mem_cons.1 hmem with heq | hmem
    · exact ha u wanted (heq ▸ List.mem_cons_self ..)
    · exact hbefore u wanted hmem
  · refine .inr ⟨⟨wanted, ?_⟩, fun tokens as hmore => ?_⟩
    · rw [before_afterAction]
      · exact List.mem_cons_of_mem a hreject
      · rintro rfl
        cases hreject
    · obtain ⟨bs, -, hmore⟩ := (leads_afterAction a move).1 hmore
      exact hleads tokens bs hmore

theorem passOver_ne_endText : Move.passOver t ≠ .endText := by
  unfold Move.passOver
  split <;> simp

theorem decides_reject (wanted : Wanted) : Decides t (.reject t wanted) := by
  refine .inr ⟨⟨wanted, ?_⟩, fun tokens as => (leads_reject wanted).1⟩
  rw [Move.reject, before_afterAction _ _ passOver_ne_endText]
  exact List.mem_cons_self ..

theorem decides_finish (h : ¬ t.kind.isBoundary) : Decides t (.finish t) := by
  rw [Move.finish, if_neg h]
  exact decides_reject _

theorem noReject_refer (name : Token) (d : Direction) : NoReject [.refer name d] := by
  simp [NoReject]

theorem decides_operand : Decides t (.operand t) := by
  unfold Move.operand
  split
  · exact decides_take noReject_nil (noReject_refer t _) trivial
  · exact decides_take noReject_nil noReject_nil trivial
  · exact decides_take noReject_nil noReject_nil trivial
  · exact decides_take noReject_nil noReject_nil trivial
  · exact decides_take noReject_nil noReject_nil trivial
  · exact decides_take noReject_nil noReject_nil trivial
  · exact decides_reject _

theorem decides_operands (h : ¬ t.kind.isBoundary) : Decides t (.operands t) := by
  rw [Move.operands, if_neg h]
  exact decides_operand

/-- Inside a statement a token leads on or is rejected, unless the statement may end and does. -/
theorem decides_move {place : Place} (hinner : Inner place)
    (h : ¬ ((∃ as, Lacking place [] as) ∧ t.kind.isBoundary)) :
    Decides t (place.move t) ∨ t.kind = .colon ∧ ∃ word, place = .afterName word := by
  have hend {as : List Action} (hplace : Lacking place [] as) : ¬ t.kind.isBoundary := by
    intro ht
    exact h ⟨⟨as, hplace⟩, ht⟩
  cases place with
  | item => cases hinner
  | recovery => cases hinner
  | afterName word =>
    by_cases hcolon : t.kind = .colon
    · exact .inr ⟨hcolon, word, rfl⟩
    · left
      have hmove : (Place.afterName word).move t =
          (Move.operands t).afterAction (.intern word) := by
        simp only [Place.move]
      rw [hmove]
      exact decides_afterAction (by simp [NoReject])
        (decides_operands (hend ⟨[], rfl, .inl ⟨rfl, rfl⟩⟩))
  | operands => exact .inl (decides_operands (hend (.inl ⟨rfl, rfl⟩)))
  | operand => exact .inl decides_operand
  | operandEnd =>
    left
    simp only [Place.move]
    split
    · exact decides_take noReject_nil noReject_nil trivial
    · exact decides_finish (hend (.inl ⟨rfl, rfl⟩))
  | nameEnd declares =>
    left
    simp only [Place.move]
    split
    · exact decides_take noReject_nil noReject_nil trivial
    · exact decides_finish (hend (.inl ⟨rfl, rfl⟩))
  | name declares =>
    left
    simp only [Place.move]
    split
    · exact decides_take noReject_nil (by cases declares <;> simp [NoReject]) trivial
    · exact decides_take noReject_nil (by cases declares <;> simp [NoReject]) trivial
    · exact decides_reject _
  | base =>
    left
    simp only [Place.move]
    split
    · exact decides_take noReject_nil (noReject_refer t _) trivial
    · exact decides_take noReject_nil noReject_nil trivial
    · exact decides_take noReject_nil noReject_nil trivial
    · exact decides_reject _
  | number | bracketTail | offset =>
    left
    simp only [Place.move]
    split <;>
      first
      | exact decides_take noReject_nil noReject_nil trivial
      | exact decides_reject _

theorem passOver_of_boundary (ht : t.kind.isBoundary) :
    Move.passOver t = .endLine [] (decide (t.kind = .newline)) := by
  unfold Move.passOver
  cases hkind : t.kind <;> simp_all [Kind.isBoundary]

/-- Where the statement in progress may end, a boundary ends it without an error, and what is
left of the statement is done. -/
theorem move_of_boundary {place : Place} {as : List Action} (hplace : Lacking place [] as)
    (ht : t.kind.isBoundary) :
    place.move t = .endLine as (decide (t.kind = .newline)) ∧ NoReject as := by
  have hcomma : t.kind ≠ .comma := by
    intro hkind
    rw [hkind] at ht
    cases ht
  have hcolon : t.kind ≠ .colon := by
    intro hkind
    rw [hkind] at ht
    cases ht
  rcases lacking_nil.1 hplace with ⟨rfl | rfl | ⟨declares, rfl⟩, rfl⟩ | ⟨word, rfl, rfl⟩
  · refine ⟨?_, noReject_nil⟩
    rw [Place.move, Move.operands, if_pos ht, passOver_of_boundary ht]
  · refine ⟨?_, noReject_nil⟩
    simp only [Place.move, Move.finish, if_pos ht, passOver_of_boundary ht]
  · refine ⟨?_, noReject_nil⟩
    simp only [Place.move, Move.finish, if_pos ht, passOver_of_boundary ht]
  · refine ⟨?_, by simp [NoReject]⟩
    simp only [Place.move, Move.operands, if_pos ht, passOver_of_boundary ht]
    rfl

end Decides

/-! Texts without an error. -/

def Performs (events : List Event) (as : List Action) : Prop := performed events = as ∧ NoReject as

@[simp] theorem performs_nil {as : List Action} : Performs [] as ↔ as = [] := by
  constructor
  · rintro ⟨rfl, -⟩
    rfl
  · rintro rfl
    exact ⟨rfl, noReject_nil⟩

theorem performs_behind {front as : List Action} {events : List Event} (hfront : NoReject front) :
    front ++ performed events = as ∧ NoReject as ↔
      ∃ bs, as = front ++ bs ∧ Performs events bs := by
  constructor
  · rintro ⟨rfl, h⟩
    exact ⟨_, rfl, rfl, (noReject_append.1 h).2⟩
  · rintro ⟨_, rfl, rfl, h⟩
    exact ⟨rfl, noReject_append.2 ⟨hfront, h⟩⟩

section Script

variable {place next : Place} {t : Token} {rest : List Token} {first second as : List Action}

theorem performs_take (ht : t.kind ≠ .corrupt) (hmove : place.move t = .take first second next)
    (hfirst : NoReject first) (hsecond : NoReject second) :
    Performs (script place (t :: rest)).1 as ↔
      ∃ bs, as = (first ++ second) ++ bs ∧ Performs (script next rest).1 bs := by
  rw [← performs_behind (noReject_append.2 ⟨hfirst, hsecond⟩), Performs, script_take ht hmove,
    performed_append, performed_consume, performed_append, performed_perform, performed_perform,
    List.append_assoc]

theorem performs_newline (ht : t.kind ≠ .corrupt) (hmove : place.move t = .endLine first true)
    (hfirst : NoReject first) :
    Performs (script place (t :: rest)).1 as ↔
      ∃ bs, as = first ++ bs ∧ Performs (script .item rest).1 bs := by
  rw [← performs_behind hfirst, Performs, script_newline ht hmove, performed_append,
    performed_append, performed_perform, performed_nextLine, List.append_assoc]
  rfl

theorem performs_leave (ht : t.kind ≠ .corrupt) (hmove : place.move t = .endLine first false)
    (hfirst : NoReject first) :
    Performs (script place (t :: rest)).1 as ↔
      ∃ bs, as = first ++ bs ∧ Performs (script .item (t :: rest)).1 bs := by
  rw [← performs_behind hfirst, Performs, script_leave ht hmove, performed_append,
    performed_perform, performed_nextLine]

theorem not_performs_of_reject (ht : t.kind ≠ .corrupt) {wanted : Wanted}
    (h : .reject t wanted ∈ before (place.move t)) :
    ¬ Performs (script place (t :: rest)).1 as := by
  rintro ⟨rfl, hnone⟩
  apply hnone t wanted
  rw [mem_performed]
  cases hmove : place.move t with
  | take first second next =>
    rw [hmove] at h
    rw [script_take ht hmove]
    exact List.mem_append_left _ (List.mem_map_of_mem h)
  | endLine first taken =>
    rw [hmove] at h
    cases taken with
    | true =>
      rw [script_newline ht hmove, List.append_assoc]
      exact List.mem_append_left _ (List.mem_map_of_mem h)
    | false =>
      rw [script_leave ht hmove]
      exact List.mem_append_left _ (List.mem_map_of_mem h)
  | endText =>
    rw [hmove] at h
    cases h

theorem take_ne_eof (hmove : place.move t = .take first second next) : t.kind ≠ .eof := by
  intro ht
  cases place <;>
    simp [Place.move, ht, Move.operands, Move.operand, Move.finish, Move.passOver, Move.reject,
      Move.afterAction, Kind.isBoundary] at hmove

end Script

inductive Ended : List Token → Prop where
  | last {t : Token} (ht : t.kind = .eof) : Ended [t]
  | cons {t : Token} {rest : List Token} (ht : t.kind ≠ .eof) (hrest : Ended rest) :
    Ended (t :: rest)

/-- The texts that can follow at a place of a line, with what they stand for. -/
def Follows : Place → Phrase
  | .item => Items
  | .afterName word => fun tokens as =>
    Then (Lacking (.afterName word)) tokens as ∨
      ∃ colon more bs, tokens = colon :: more ∧ colon.kind = .colon ∧
        as = .declareLabel word colon :: bs ∧ Items more bs
  | place => Then (Lacking place)

theorem follows_of_then {place : Place} {tokens : List Token} {as : List Action}
    (hplace : Inner place) (h : Then (Lacking place) tokens as) : Follows place tokens as := by
  cases place with
  | item => cases hplace
  | afterName word => exact .inl h
  | _ => exact h

theorem then_of_follows {place : Place} {tokens : List Token} {as : List Action}
    (hplace : Inner place) (h : Follows place tokens as) (hcolon : ∀ colon more,
      tokens = colon :: more → (∃ word, place = .afterName word) → colon.kind ≠ .colon) :
    Then (Lacking place) tokens as := by
  cases place with
  | item => cases hplace
  | recovery => cases hplace
  | afterName word =>
    rcases h with h | ⟨colon, more, _, rfl, hkind, _⟩
    · exact h
    · exact absurd hkind (hcolon colon more rfl ⟨word, rfl⟩)
  | _ => exact h

theorem takesNames_iff {directive : String} {declares : Bool} :
    TakesNames directive declares ↔
      directive = ".extern" ∧ declares = true ∨
        (directive = ".global" ∨ directive = ".section") ∧ declares = false := by
  constructor
  · rintro (_ | _ | _) <;> simp
  · rintro (⟨rfl, rfl⟩ | ⟨rfl | rfl, rfl⟩)
    · exact .external
    · exact .global
    · exact .section

theorem follows_afterDirective {directive : String} {tokens : List Token} {as : List Action} :
    Follows (.afterDirective directive) tokens as ↔
      (∀ declares, ¬ TakesNames directive declares) ∧ Then (Lacking .operands) tokens as ∨
        ∃ declares, TakesNames directive declares ∧ Then (Separated (Name declares)) tokens as := by
  unfold Place.afterDirective
  simp only [takesNames_iff]
  split
  · next hexternal => simp [hexternal, Follows, Lacking]
  · next hexternal =>
    split
    · next hname => simp [hexternal, hname, Follows, Lacking]
    · next hname => simp [hexternal, hname, Follows]

/-- What a text that starts with `t` goes on with. -/
def Item (t : Token) (rest : List Token) (as : List Action) : Prop :=
  t.kind = .eof ∧ rest = [] ∧ as = [] ∨
  t.kind = .newline ∧ Items rest as ∨
  t.kind = .leftBrace ∧ (∃ bs, as = .openBlock t :: bs ∧ Items rest bs) ∨
  t.kind = .rightBrace ∧ (∃ bs, as = .closeBlock t :: bs ∧ Items rest bs) ∨
  t.kind = .identifier ∧ Follows (.afterName t) rest as ∨
  t.kind = .directive ∧ ∃ bs, as = .intern t :: bs ∧ Follows (.afterDirective t.text) rest bs

theorem item_of_statement {t : Token} {statement more rest : List Token} {as bs : List Action}
    (hstatement : Statement statement as) (heq : t :: rest = statement ++ more)
    (hend : AtEnd more bs) : Item t rest (as ++ bs) := by
  cases hstatement with
  | @plain head operands as hhead hoperands =>
    cases heq
    rcases hhead with hkind | ⟨hkind, hplain⟩
    · refine .inr (.inr (.inr (.inr (.inl ⟨hkind, .inl ?_⟩))))
      exact ⟨operands, more, _, bs, rfl, rfl, ⟨as, rfl, hoperands⟩, hend⟩
    · refine .inr (.inr (.inr (.inr (.inr ⟨hkind, as ++ bs, rfl, ?_⟩))))
      exact follows_afterDirective.2
        (.inl ⟨hplain, operands, more, as, bs, rfl, rfl, hoperands, hend⟩)
  | @names head names declares as hhead hnames hlist =>
    cases heq
    refine .inr (.inr (.inr (.inr (.inr ⟨hhead, as ++ bs, rfl, ?_⟩))))
    exact follows_afterDirective.2
      (.inr ⟨declares, hnames, names, more, as, bs, rfl, rfl, hlist, hend⟩)

theorem item_of_items {t : Token} {rest : List Token} {as : List Action}
    (h : Items (t :: rest) as) : Item t rest as := by
  generalize heq : t :: rest = tokens at h
  cases h with
  | done ht =>
    cases heq
    exact .inl ⟨ht, rfl, rfl⟩
  | newline ht hrest =>
    cases heq
    exact .inr (.inl ⟨ht, hrest⟩)
  | leftBrace ht hrest =>
    cases heq
    exact .inr (.inr (.inl ⟨ht, _, rfl, hrest⟩))
  | rightBrace ht hrest =>
    cases heq
    exact .inr (.inr (.inr (.inl ⟨ht, _, rfl, hrest⟩)))
  | label hname hcolon hrest =>
    cases heq
    exact .inr (.inr (.inr (.inr (.inl ⟨hname, .inr ⟨_, _, _, rfl, hcolon, rfl, hrest⟩⟩))))
  | statement htokens ht hrest =>
    exact item_of_statement htokens heq ⟨.newline ht hrest, _, _, rfl, by rw [ht]; rfl⟩
  | statementBefore htokens ht hrest =>
    refine item_of_statement htokens heq ⟨hrest, _, _, rfl, ?_⟩
    rcases ht with ht | ht | ht <;> rw [ht] <;> rfl

/-- A statement is followed by what ends it. -/
theorem items_of_statement {statement rest : List Token} {as bs : List Action}
    (hstatement : Statement statement as) (hend : AtEnd rest bs) :
    Items (statement ++ rest) (as ++ bs) := by
  obtain ⟨hitems, t, more, rfl, ht⟩ := hend
  by_cases hnewline : t.kind = .newline
  · apply Items.statement hstatement hnewline
    have hitem := item_of_items hitems
    simpa [Item, hnewline] using hitem
  · refine .statementBefore hstatement ?_ hitems
    cases hkind : t.kind <;> simp_all [Kind.isBoundary]

theorem items_cons {t : Token} {rest : List Token} {as : List Action} :
    Items (t :: rest) as ↔ Item t rest as := by
  refine ⟨item_of_items, ?_⟩
  rintro (⟨ht, rfl, rfl⟩ | ⟨ht, hrest⟩ | ⟨ht, bs, rfl, hrest⟩ | ⟨ht, bs, rfl, hrest⟩ |
    ⟨ht, hfollows⟩ | ⟨ht, bs, rfl, hfollows⟩)
  · exact .done ht
  · exact .newline ht hrest
  · exact .leftBrace ht hrest
  · exact .rightBrace ht hrest
  · rcases hfollows with ⟨operands, more, _, cs, rfl, rfl, ⟨bs, rfl, hoperands⟩, hend⟩ |
      ⟨colon, more, bs, rfl, hcolon, rfl, hitems⟩
    · exact items_of_statement (.plain (.inl ht) hoperands) hend
    · exact .label ht hcolon hitems
  · rcases follows_afterDirective.1 hfollows with
      ⟨hplain, operands, more, bs, cs, rfl, rfl, hoperands, hend⟩ |
      ⟨declares, hnames, names, more, bs, cs, rfl, rfl, hlist, hend⟩
    · exact items_of_statement (.plain (.inr ⟨ht, hplain⟩) hoperands) hend
    · exact items_of_statement (.names ht hnames hlist) hend

section Performs

variable {t : Token} {rest : List Token} {as : List Action}

/-- A place at the start of an item, given that the rest of the text is read rightly. -/
theorem performs_item (hcorrupt : t.kind ≠ .corrupt) (hend : t.kind = .eof → rest = [])
    (hrest : t.kind ≠ .eof → ∀ place, place ≠ .recovery → ∀ as,
      (Performs (script place rest).1 as ↔ Follows place rest as)) :
    Performs (script .item (t :: rest)).1 as ↔ Items (t :: rest) as := by
  have htake (actions : List Action) (next : Place) (hactions : NoReject actions)
      (hnext : next ≠ .recovery) (hmove : Place.item.move t = .take [] actions next) :
      Performs (script .item (t :: rest)).1 as ↔
        ∃ bs, as = actions ++ bs ∧ Follows next rest bs := by
    simp only [performs_take hcorrupt hmove noReject_nil hactions, List.nil_append,
      hrest (take_ne_eof hmove) next hnext]
  rw [items_cons]
  cases hkind : t.kind with
  | eof =>
    have hscript : script .item (t :: rest) = ([], .text) :=
      script_endText hcorrupt (by simp only [Place.move, hkind])
    rw [hscript, performs_nil]
    simp [Item, hkind, hend hkind]
  | newline =>
    have hmove : Place.item.move t = .endLine [] true := by simp only [Place.move, hkind]
    rw [performs_newline hcorrupt hmove noReject_nil]
    simp [hrest (by simp [hkind]) .item (by simp), Item, hkind, Follows]
  | leftBrace =>
    rw [htake [.openBlock t] .item (by simp [NoReject]) (by simp)
      (by simp only [Place.move, hkind])]
    simp [Item, hkind, Follows]
  | rightBrace =>
    rw [htake [.closeBlock t] .item (by simp [NoReject]) (by simp)
      (by simp only [Place.move, hkind])]
    simp [Item, hkind, Follows]
  | identifier =>
    rw [htake [] (.afterName t) noReject_nil (by simp) (by simp only [Place.move, hkind])]
    simp [Item, hkind]
  | directive =>
    have hmove : Place.item.move t = .take [] [.intern t] (.afterDirective t.text) := by
      simp only [Place.move, hkind]
    have hafter : Place.afterDirective t.text ≠ .recovery := by
      unfold Place.afterDirective
      split
      · simp
      · split <;> simp
    rw [htake [.intern t] _ (by simp [NoReject]) hafter hmove]
    simp [Item, hkind]
  | _ =>
    have hmove : Place.item.move t = .reject t .item := by simp only [Place.move, hkind]
    have hreject : .reject t .item ∈ before (Place.item.move t) := by
      rw [hmove, Move.reject, before_afterAction _ _ passOver_ne_endText]
      exact List.mem_cons_self ..
    have hnot : ¬ Performs (script .item (t :: rest)).1 as :=
      not_performs_of_reject hcorrupt hreject
    simp [hnot, Item, hkind]

theorem then_lacking_cons {place : Place} (hplace : Inner place) :
    Then (Lacking place) (t :: rest) as ↔
      (∃ bs cs, as = bs ++ cs ∧ Lacking place [] bs ∧ AtEnd (t :: rest) cs) ∨
        Then (Leads (place.move t)) rest as := by
  rw [then_cons, then_congr (lacking_cons hplace t) rest]

/-- A phrase that lacks nothing ends before a token that ends a line. -/
theorem performs_boundary {place : Place} {front : List Action} (hplace : Inner place)
    (hcorrupt : t.kind ≠ .corrupt)
    (hitem : ∀ as, Performs (script .item (t :: rest)).1 as ↔ Items (t :: rest) as)
    (hnil : Lacking place [] front) (ht : t.kind.isBoundary) :
    Performs (script place (t :: rest)).1 as ↔ Follows place (t :: rest) as := by
  obtain ⟨hmove, hfront⟩ := move_of_boundary hnil ht
  have hsame : Performs (script place (t :: rest)).1 as ↔
      ∃ bs, as = front ++ bs ∧ Performs (script .item (t :: rest)).1 bs := by
    by_cases hnewline : t.kind = .newline
    · have hhere : Place.item.move t = .endLine [] true := by simp only [Place.move, hnewline]
      rw [hnewline] at hmove
      rw [performs_newline hcorrupt hmove hfront]
      simp only [performs_newline hcorrupt hhere noReject_nil, List.nil_append, exists_eq_left']
    · rw [decide_eq_false hnewline] at hmove
      exact performs_leave hcorrupt hmove hfront
  simp only [hsame, hitem]
  constructor
  · rintro ⟨bs, rfl, hitems⟩
    apply follows_of_then hplace
    exact (then_lacking_cons hplace).2 (.inl ⟨front, bs, rfl, hnil, hitems, t, rest, rfl, ht⟩)
  · intro h
    have hthen := then_of_follows hplace h fun colon more heq _ hcolon => by
      cases heq
      rw [hcolon] at ht
      cases ht
    rcases (then_lacking_cons hplace).1 hthen with ⟨bs, cs, rfl, hlacking, hitems, _⟩ | hmore
    · have hbs : bs = front := by
        have heq := (move_of_boundary hlacking ht).1.symm.trans hmove
        exact (Move.endLine.inj heq).1
      exact ⟨cs, by rw [hbs], hitems⟩
    · rw [hmove] at hmore
      exact absurd hmore (then_false rest as)

theorem performs_label {word : Token} (hcolon : t.kind = .colon)
    (hrest : ∀ as, Performs (script .item rest).1 as ↔ Items rest as) :
    Performs (script (.afterName word) (t :: rest)).1 as ↔
      Follows (.afterName word) (t :: rest) as := by
  have hcorrupt : t.kind ≠ .corrupt := by simp [hcolon]
  have hmove : (Place.afterName word).move t = .take [] [.declareLabel word t] .item := by
    simp only [Place.move, hcolon]
  have hnot : ¬ Then (Lacking (.afterName word)) (t :: rest) as := by
    have hinner : Inner (.afterName word) := trivial
    rw [then_lacking_cons hinner, hmove]
    rintro (⟨_, _, -, -, -, _, _, heq, ht⟩ | ⟨_, _, _, _, -, -, ⟨_, -, hlacking⟩, -⟩)
    · cases heq
      rw [hcolon] at ht
      cases ht
    · cases hlacking
  rw [performs_take hcorrupt hmove noReject_nil (by simp [NoReject])]
  simp only [hrest]
  constructor
  · rintro ⟨bs, rfl, hitems⟩
    exact .inr ⟨t, rest, bs, rfl, hcolon, rfl, hitems⟩
  · rintro (hthen | ⟨_, _, bs, heq, _, rfl, hitems⟩)
    · exact absurd hthen hnot
    · cases heq
      exact ⟨bs, rfl, hitems⟩

theorem performs_inner {place : Place} (hplace : Inner place) (hcorrupt : t.kind ≠ .corrupt)
    (hitem : ∀ as, Performs (script .item (t :: rest)).1 as ↔ Items (t :: rest) as)
    (hrest : t.kind ≠ .eof → ∀ place, place ≠ .recovery → ∀ as,
      (Performs (script place rest).1 as ↔ Follows place rest as)) :
    Performs (script place (t :: rest)).1 as ↔ Follows place (t :: rest) as := by
  by_cases hboundary : (∃ as, Lacking place [] as) ∧ t.kind.isBoundary
  · obtain ⟨⟨front, hnil⟩, ht⟩ := hboundary
    exact performs_boundary hplace hcorrupt hitem hnil ht
  by_cases hlabel : t.kind = .colon ∧ ∃ word, place = .afterName word
  · obtain ⟨hcolon, word, rfl⟩ := hlabel
    exact performs_label hcolon (hrest (by simp [hcolon]) .item (by simp))
  have hend : ¬ ∃ bs cs, as = bs ++ cs ∧ Lacking place [] bs ∧ AtEnd (t :: rest) cs := by
    rintro ⟨bs, _, -, hnil, _, _, _, heq, ht⟩
    cases heq
    exact hboundary ⟨⟨bs, hnil⟩, ht⟩
  have hthen : Follows place (t :: rest) as ↔ Then (Leads (place.move t)) rest as := by
    constructor
    · intro h
      have hfollows := then_of_follows hplace h fun colon more heq hword hcolon => by
        cases heq
        exact hlabel ⟨hcolon, hword⟩
      exact ((then_lacking_cons hplace).1 hfollows).resolve_left hend
    · intro h
      apply follows_of_then hplace
      exact (then_lacking_cons hplace).2 (.inr h)
  rw [hthen]
  obtain ⟨first, second, next, hmove, hfirst, hsecond, hnext⟩ | ⟨⟨wanted, hreject⟩, hleads⟩ :=
    (decides_move hplace hboundary).resolve_right hlabel
  · have hnext' : next ≠ .recovery ∧ Follows next rest = Then (Lacking next) rest := by
      cases next <;> first | exact hnext.elim | exact ⟨by simp, rfl⟩
    have hmore := hrest (take_ne_eof hmove) next hnext'.1
    rw [hnext'.2] at hmore
    rw [performs_take hcorrupt hmove hfirst hsecond, hmove]
    simp only [hmore]
    exact then_behind.symm
  · apply iff_of_false (not_performs_of_reject hcorrupt hreject)
    rintro ⟨phrase, _, bs, _, _, _, hphrase, _⟩
    exact hleads phrase bs hphrase

end Performs

/-- The reading from a place of a line performs some actions and rejects nothing exactly if a
text that stands for the actions can follow there. -/
theorem performs_iff {tokens : List Token} (hend : Ended tokens)
    (hcorrupt : ∀ t ∈ tokens, t.kind ≠ .corrupt) {place : Place} (hplace : place ≠ .recovery)
    (as : List Action) : Performs (script place tokens).1 as ↔ Follows place tokens as := by
  induction hend generalizing place as with
  | @last t ht =>
    have hno : t.kind ≠ .eof → ∀ place, place ≠ .recovery → ∀ as,
        (Performs (script place []).1 as ↔ Follows place [] as) := by
      intro h
      exact absurd ht h
    have hitem (as : List Action) : Performs (script .item [t]).1 as ↔ Items [t] as :=
      performs_item (hcorrupt t (List.mem_cons_self ..)) (fun _ => rfl) hno
    by_cases hinner : Inner place
    · exact performs_inner hinner (hcorrupt t (List.mem_cons_self ..)) hitem hno
    · cases place <;> simp_all [Inner, Follows]
  | @cons t rest ht hend ih =>
    have hrest : t.kind ≠ .eof → ∀ place, place ≠ .recovery → ∀ as,
        (Performs (script place rest).1 as ↔ Follows place rest as) := by
      intro _ place hplace
      exact ih (fun u hu => hcorrupt u (List.mem_cons_of_mem _ hu)) hplace
    have hitem (as : List Action) :
        Performs (script .item (t :: rest)).1 as ↔ Items (t :: rest) as :=
      performs_item (hcorrupt t (List.mem_cons_self ..)) (fun h => absurd h ht) hrest
    by_cases hinner : Inner place
    · exact performs_inner hinner (hcorrupt t (List.mem_cons_self ..)) hitem hrest
    · cases place <;> simp_all [Inner, Follows]

end Grammar

end LabelGraph
