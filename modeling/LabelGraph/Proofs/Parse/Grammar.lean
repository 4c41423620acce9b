import LabelGraph.Parse.Grammar

/-!
The grammar of the assembler text, as phrases of tokens with the actions that they stand for.
Each place of a line stands for what the phrase in progress still lacks, and the table of moves
follows the phrases token by token.
-/

namespace LabelGraph

namespace Grammar

/-- Phrases of a kind, each with the actions that it stands for. -/
abbrev Phrase := List Token → List Action → Prop

/-- Phrases with commas between them, at least one. -/
inductive Separated (P : Phrase) : List Token → List Action → Prop where
  | one {first : List Token} {as : List Action} (hfirst : P first as) : Separated P first as
  | more {first rest : List Token} {comma : Token} {as bs : List Action} (hfirst : P first as)
    (hcomma : comma.kind = .comma) (hrest : Separated P rest bs) :
    Separated P (first ++ comma :: rest) (as ++ bs)

inductive Offsets : List Token → Prop where
  | nil : Offsets []
  | cons {sign value : Token} {rest : List Token}
    (hsign : sign.kind = .plus ∨ sign.kind = .minus)
    (hvalue : value.kind = .number ∨ value.kind = .register) (hrest : Offsets rest) :
    Offsets (sign :: value :: rest)

/-- A name in brackets is where the data comes from. -/
inductive Base : Token → List Action → Prop where
  | label {t : Token} (ht : t.kind = .identifier) : Base t [.refer t .incoming]
  | value {t : Token} (ht : t.kind = .register ∨ t.kind = .number) : Base t []

inductive Operand : List Token → List Action → Prop where
  | label {t : Token} (ht : t.kind = .identifier) : Operand [t] [.refer t .outgoing]
  | value {t : Token} (ht : t.kind = .register ∨ t.kind = .number ∨ t.kind = .stringLiteral) :
    Operand [t] []
  | negative {sign value : Token} (hsign : sign.kind = .minus) (hvalue : value.kind = .number) :
    Operand [sign, value] []
  | memory {left base right : Token} {offsets : List Token} {as : List Action}
    (hleft : left.kind = .leftBracket) (hbase : Base base as) (hoffsets : Offsets offsets)
    (hright : right.kind = .rightBracket) : Operand (left :: base :: (offsets ++ [right])) as

def Operands : Phrase := fun tokens as => tokens = [] ∧ as = [] ∨ Separated Operand tokens as

inductive Name (declares : Bool) : List Token → List Action → Prop where
  | word {t : Token} (ht : t.kind = .identifier ∨ t.kind = .directive) :
    Name declares [t] [if declares then .declareExternal t else .intern t]

/-- The directives that are followed by names, and whether they declare them. -/
inductive TakesNames : String → Bool → Prop where
  | external : TakesNames ".extern" true
  | global : TakesNames ".global" false
  | section : TakesNames ".section" false

inductive Statement : List Token → List Action → Prop where
  | plain {head : Token} {operands : List Token} {as : List Action}
    (hhead : head.kind = .identifier ∨
      head.kind = .directive ∧ ∀ declares, ¬ TakesNames head.text declares)
    (hoperands : Operands operands as) : Statement (head :: operands) (.intern head :: as)
  | names {head : Token} {names : List Token} {declares : Bool} {as : List Action}
    (hhead : head.kind = .directive) (hnames : TakesNames head.text declares)
    (hlist : Separated (Name declares) names as) : Statement (head :: names) (.intern head :: as)

/-- A whole text, up to and with the token behind its last one. -/
inductive Items : List Token → List Action → Prop where
  | done {t : Token} (ht : t.kind = .eof) : Items [t] []
  | newline {t : Token} {rest : List Token} {as : List Action} (ht : t.kind = .newline)
    (hrest : Items rest as) : Items (t :: rest) as
  | leftBrace {t : Token} {rest : List Token} {as : List Action} (ht : t.kind = .leftBrace)
    (hrest : Items rest as) : Items (t :: rest) (.openBlock t :: as)
  | rightBrace {t : Token} {rest : List Token} {as : List Action} (ht : t.kind = .rightBrace)
    (hrest : Items rest as) : Items (t :: rest) (.closeBlock t :: as)
  | label {name colon : Token} {rest : List Token} {as : List Action}
    (hname : name.kind = .identifier) (hcolon : colon.kind = .colon) (hrest : Items rest as) :
    Items (name :: colon :: rest) (.declareLabel name colon :: as)
  /-- The line feed behind a statement belongs to it. -/
  | statement {tokens rest : List Token} {t : Token} {as bs : List Action}
    (htokens : Statement tokens as) (ht : t.kind = .newline) (hrest : Items rest bs) :
    Items (tokens ++ t :: rest) (as ++ bs)
  /-- What else ends a statement is an item of its own, or the end of the text. -/
  | statementBefore {tokens rest : List Token} {t : Token} {as bs : List Action}
    (htokens : Statement tokens as)
    (ht : t.kind = .leftBrace ∨ t.kind = .rightBrace ∨ t.kind = .eof)
    (hrest : Items (t :: rest) bs) : Items (tokens ++ t :: rest) (as ++ bs)

/-! Phrases, token by token. -/

def More (P : Phrase) : Phrase := fun tokens as =>
  tokens = [] ∧ as = [] ∨
    ∃ comma rest, tokens = comma :: rest ∧ comma.kind = .comma ∧ Separated P rest as

theorem separated_iff {P : Phrase} {tokens : List Token} {as : List Action} :
    Separated P tokens as ↔
      ∃ first more bs cs, tokens = first ++ more ∧ as = bs ++ cs ∧ P first bs ∧ More P more cs := by
  constructor
  · rintro (hfirst | ⟨hfirst, hcomma, hrest⟩)
    · exact ⟨tokens, [], as, [], by simp, by simp, hfirst, .inl ⟨rfl, rfl⟩⟩
    · exact ⟨_, _, _, _, rfl, rfl, hfirst, .inr ⟨_, _, rfl, hcomma, hrest⟩⟩
  · rintro ⟨first, more, bs, cs, rfl, rfl, hfirst, ⟨rfl, rfl⟩ | ⟨comma, rest, rfl, hcomma, hrest⟩⟩
    · rw [List.append_nil, List.append_nil]
      exact .one hfirst
    · exact .more hfirst hcomma hrest

/-- A place where a statement can end, and what follows. -/
def AtEnd : Phrase := fun tokens as =>
  Items tokens as ∧ ∃ t rest, tokens = t :: rest ∧ t.kind.isBoundary

/-- The rest of a statement, and what follows it. -/
def Then (P : Phrase) : Phrase := fun tokens as =>
  ∃ phrase rest bs cs, tokens = phrase ++ rest ∧ as = bs ++ cs ∧ P phrase bs ∧ AtEnd rest cs

theorem then_cons {P : Phrase} {t : Token} {rest : List Token} {as : List Action} :
    Then P (t :: rest) as ↔
      (∃ bs cs, as = bs ++ cs ∧ P [] bs ∧ AtEnd (t :: rest) cs) ∨
        Then (fun phrase => P (t :: phrase)) rest as := by
  constructor
  · rintro ⟨phrase, more, bs, cs, heq, rfl, hphrase, hend⟩
    cases phrase with
    | nil =>
      rw [heq]
      exact .inl ⟨bs, cs, rfl, hphrase, hend⟩
    | cons u phrase =>
      cases heq
      exact .inr ⟨phrase, more, bs, cs, rfl, rfl, hphrase, hend⟩
  · rintro (⟨bs, cs, rfl, hphrase, hend⟩ | ⟨phrase, more, bs, cs, rfl, rfl, hphrase, hend⟩)
    · exact ⟨[], _, bs, cs, rfl, rfl, hphrase, hend⟩
    · exact ⟨t :: phrase, more, bs, cs, rfl, rfl, hphrase, hend⟩

theorem then_congr {P Q : Phrase} (h : ∀ phrase as, P phrase as ↔ Q phrase as)
    (tokens : List Token) (as : List Action) : Then P tokens as ↔ Then Q tokens as := by
  simp only [Then, h]

theorem then_false (tokens : List Token) (as : List Action) :
    ¬ Then (fun _ _ => False) tokens as := by
  rintro ⟨_, _, _, _, _, _, hphrase, _⟩
  exact hphrase

/-- The actions in front of a phrase are done before it. -/
theorem then_behind {P : Phrase} {front as : List Action} {tokens : List Token} :
    Then (fun phrase bs => ∃ cs, bs = front ++ cs ∧ P phrase cs) tokens as ↔
      ∃ bs, as = front ++ bs ∧ Then P tokens bs := by
  constructor
  · rintro ⟨phrase, rest, _, cs, rfl, rfl, ⟨bs, rfl, hphrase⟩, hend⟩
    exact ⟨bs ++ cs, by simp, phrase, rest, bs, cs, rfl, rfl, hphrase, hend⟩
  · rintro ⟨_, rfl, phrase, rest, bs, cs, rfl, rfl, hphrase, hend⟩
    exact ⟨phrase, rest, front ++ bs, cs, rfl, by simp, ⟨bs, rfl, hphrase⟩, hend⟩

/-- The rest of a memory operand behind its base, and the operands behind it. -/
def BracketTail : Phrase := fun tokens as =>
  ∃ offsets right more, tokens = offsets ++ right :: more ∧ Offsets offsets ∧
    right.kind = .rightBracket ∧ More Operand more as

/-- What the statement in progress lacks at a place of the line. -/
def Lacking : Place → Phrase
  | .item | .recovery => fun _ _ => False
  | .afterName word => fun tokens as => ∃ bs, as = .intern word :: bs ∧ Operands tokens bs
  | .operands => Operands
  | .operand => Separated Operand
  | .number => fun tokens as =>
    ∃ value more, tokens = value :: more ∧ value.kind = .number ∧ More Operand more as
  | .base => fun tokens as =>
    ∃ base more bs cs, tokens = base :: more ∧ as = bs ++ cs ∧ Base base bs ∧ BracketTail more cs
  | .bracketTail => BracketTail
  | .offset => fun tokens as =>
    ∃ value more, tokens = value :: more ∧
      (value.kind = .number ∨ value.kind = .register) ∧ BracketTail more as
  | .operandEnd => More Operand
  | .name declares => Separated (Name declares)
  | .nameEnd declares => More (Name declares)

section Heads

variable {t : Token} {tokens : List Token} {as : List Action} {P : Phrase}

theorem head_iff {Q : Token → Prop} {P : List Token → Prop} :
    (∃ first rest, t :: tokens = first :: rest ∧ Q first ∧ P rest) ↔ Q t ∧ P tokens := by
  constructor
  · rintro ⟨_, _, heq, hfirst, hrest⟩
    cases heq
    exact ⟨hfirst, hrest⟩
  · rintro ⟨hfirst, hrest⟩
    exact ⟨t, tokens, rfl, hfirst, hrest⟩

@[simp] theorem more_cons : More P (t :: tokens) as ↔ t.kind = .comma ∧ Separated P tokens as := by
  constructor
  · rintro (⟨h, -⟩ | ⟨comma, rest, heq, hcomma, hrest⟩)
    · cases h
    · cases heq
      exact ⟨hcomma, hrest⟩
  · rintro ⟨hcomma, hrest⟩
    exact .inr ⟨t, tokens, rfl, hcomma, hrest⟩

theorem separated_name_cons {declares : Bool} :
    Separated (Name declares) (t :: tokens) as ↔
      (t.kind = .identifier ∨ t.kind = .directive) ∧
        ∃ bs, as = (if declares then .declareExternal t else .intern t) :: bs ∧
          More (Name declares) tokens bs := by
  rw [separated_iff]
  constructor
  · rintro ⟨_, more, _, cs, heq, rfl, ⟨hkind⟩, hmore⟩
    cases heq
    exact ⟨hkind, cs, rfl, hmore⟩
  · rintro ⟨hkind, bs, rfl, hmore⟩
    exact ⟨[t], tokens, _, bs, rfl, rfl, .word hkind, hmore⟩

theorem separated_operand_cons :
    Separated Operand (t :: tokens) as ↔
      t.kind = .identifier ∧
          (∃ bs, as = .refer t .outgoing :: bs ∧ More Operand tokens bs) ∨
        (t.kind = .register ∨ t.kind = .number ∨ t.kind = .stringLiteral) ∧
          More Operand tokens as ∨
        t.kind = .minus ∧ Lacking .number tokens as ∨
        t.kind = .leftBracket ∧ Lacking .base tokens as := by
  rw [separated_iff]
  constructor
  · rintro ⟨_, more, _, cs, heq, rfl,
      hkind | hkind | ⟨hsign, hvalue⟩ | ⟨hleft, hbase, hoffsets, hright⟩, hmore⟩
    · cases heq
      exact .inl ⟨hkind, cs, rfl, hmore⟩
    · cases heq
      exact .inr (.inl ⟨hkind, hmore⟩)
    · cases heq
      exact .inr (.inr (.inl ⟨hsign, _, more, rfl, hvalue, hmore⟩))
    · cases heq
      refine .inr (.inr (.inr ⟨hleft, _, _, _, cs, rfl, rfl, hbase, _, _, more, ?_, hoffsets,
        hright, hmore⟩))
      simp
  · rintro (⟨hkind, bs, rfl, hmore⟩ | ⟨hkind, hmore⟩ | ⟨hsign, value, more, rfl, hvalue, hmore⟩ |
      ⟨hleft, base, _, bs, cs, rfl, rfl, hbase, offsets, right, more, rfl, hoffsets, hright,
        hmore⟩)
    · exact ⟨[t], tokens, _, bs, rfl, rfl, .label hkind, hmore⟩
    · exact ⟨[t], tokens, [], as, rfl, rfl, .value hkind, hmore⟩
    · exact ⟨[t, value], more, [], as, rfl, rfl, .negative hsign hvalue, hmore⟩
    · refine ⟨t :: base :: (offsets ++ [right]), more, bs, cs, ?_, rfl,
        .memory hleft hbase hoffsets hright, hmore⟩
      simp

theorem base_cons :
    Lacking .base (t :: tokens) as ↔
      t.kind = .identifier ∧ (∃ bs, as = .refer t .incoming :: bs ∧ BracketTail tokens bs) ∨
        (t.kind = .register ∨ t.kind = .number) ∧ BracketTail tokens as := by
  constructor
  · rintro ⟨_, _, _, cs, heq, rfl, hkind | hkind, htail⟩
    · cases heq
      exact .inl ⟨hkind, cs, rfl, htail⟩
    · cases heq
      exact .inr ⟨hkind, htail⟩
  · rintro (⟨hkind, bs, rfl, htail⟩ | ⟨hkind, htail⟩)
    · exact ⟨t, tokens, _, bs, rfl, rfl, .label hkind, htail⟩
    · exact ⟨t, tokens, [], as, rfl, rfl, .value hkind, htail⟩

theorem bracketTail_cons :
    BracketTail (t :: tokens) as ↔
      (t.kind = .plus ∨ t.kind = .minus) ∧ Lacking .offset tokens as ∨
        t.kind = .rightBracket ∧ More Operand tokens as := by
  constructor
  · rintro ⟨_, right, more, heq, _ | ⟨hsign, hvalue, hoffsets⟩, hright, hmore⟩
    · cases heq
      exact .inr ⟨hright, hmore⟩
    · cases heq
      exact .inl ⟨hsign, _, _, rfl, hvalue, _, right, more, rfl, hoffsets, hright, hmore⟩
  · rintro (⟨hsign, value, _, rfl, hvalue, offsets, right, more, rfl, hoffsets, hright, hmore⟩ |
      ⟨hright, hmore⟩)
    · exact ⟨t :: value :: offsets, right, more, rfl, .cons hsign hvalue hoffsets, hright, hmore⟩
    · exact ⟨[], t, tokens, rfl, .nil, hright, hmore⟩

end Heads

def Inner : Place → Prop
  | .item | .recovery => False
  | _ => True

/-- The places inside a statement that cannot turn out to be a label. -/
def Deep : Place → Prop
  | .item | .recovery | .afterName _ => False
  | _ => True

/-- The token is taken by the statement in progress, which lacks the other tokens now. -/
def Leads : Move → Phrase
  | .take before after next => fun tokens as =>
    ∃ bs, as = (before ++ after) ++ bs ∧ Lacking next tokens bs
  | _ => fun _ _ => False

section Leads

variable {t : Token} {tokens : List Token} {as : List Action}

@[simp] theorem leads_take (before after : List Action) (next : Place) :
    Leads (.take before after next) tokens as ↔
      ∃ bs, as = (before ++ after) ++ bs ∧ Lacking next tokens bs := Iff.rfl

@[simp] theorem leads_afterAction (a : Action) (move : Move) :
    Leads (move.afterAction a) tokens as ↔ ∃ bs, as = a :: bs ∧ Leads move tokens bs := by
  cases move with
  | take before after next =>
    constructor
    · rintro ⟨bs, rfl, hlacking⟩
      exact ⟨_, rfl, bs, rfl, hlacking⟩
    · rintro ⟨_, rfl, bs, rfl, hlacking⟩
      exact ⟨bs, rfl, hlacking⟩
  | _ => simp [Move.afterAction, Leads]

@[simp] theorem leads_passOver : Leads (.passOver t) tokens as ↔ False := by
  unfold Move.passOver
  split <;> simp [Leads, Lacking]

@[simp] theorem leads_reject (wanted : Wanted) : Leads (.reject t wanted) tokens as ↔ False := by
  simp [Move.reject]

@[simp] theorem leads_finish : Leads (.finish t) tokens as ↔ False := by
  unfold Move.finish
  split
  · exact leads_passOver
  · exact leads_reject _

theorem leads_operand : Leads (.operand t) tokens as ↔ Separated Operand (t :: tokens) as := by
  rw [separated_operand_cons, Move.operand]
  split <;> simp_all [leads_take, leads_reject, Lacking]

theorem leads_operands : Leads (.operands t) tokens as ↔ Separated Operand (t :: tokens) as := by
  unfold Move.operands
  split
  · next hboundary =>
    rw [leads_passOver, separated_operand_cons]
    cases hkind : t.kind <;> simp_all [Kind.isBoundary]
  · exact leads_operand

end Leads

/-- The table of moves follows the phrases. -/
theorem lacking_cons {place : Place} (hplace : Inner place) (t : Token) (tokens : List Token)
    (as : List Action) :
    Lacking place (t :: tokens) as ↔ Leads (place.move t) tokens as := by
  cases place with
  | item => cases hplace
  | recovery => cases hplace
  | afterName word =>
    simp only [Place.move, Lacking, Operands, reduceCtorEq, false_and, false_or]
    split
    · next hcolon =>
      simp only [leads_take, separated_operand_cons]
      simp [hcolon, Lacking]
    · simp [leads_operands]
  | operands => simp [Place.move, Lacking, Operands, leads_operands]
  | operand => simp [Place.move, Lacking, leads_operand]
  | number =>
    simp only [Place.move, Lacking, head_iff]
    split <;> simp_all [leads_take, leads_reject, Lacking]
  | base =>
    rw [base_cons]
    simp only [Place.move]
    split <;> simp_all [leads_take, leads_reject, Lacking]
  | bracketTail =>
    simp only [Place.move, Lacking, bracketTail_cons]
    split <;> simp_all [leads_take, leads_reject, Lacking]
  | offset =>
    simp only [Place.move, Lacking, head_iff]
    split <;> simp_all [leads_take, leads_reject, Lacking]
  | operandEnd =>
    simp only [Place.move, Lacking, more_cons]
    split <;> simp_all [leads_take, leads_finish, Lacking]
  | name declares =>
    simp only [Place.move, Lacking, separated_name_cons]
    cases t.kind <;> simp [Lacking]
  | nameEnd declares =>
    simp only [Place.move, Lacking, more_cons]
    split <;> simp_all [leads_take, leads_finish, Lacking]

theorem lacking_nil {place : Place} {as : List Action} :
    Lacking place [] as ↔
      (place = .operands ∨ place = .operandEnd ∨ ∃ declares, place = .nameEnd declares) ∧
          as = [] ∨
        ∃ word, place = .afterName word ∧ as = [.intern word] := by
  have hoperand (as : List Action) : ¬ Separated Operand [] as := by
    rw [separated_iff]
    rintro ⟨first, more, _, _, heq, _, hfirst, _⟩
    obtain ⟨rfl, rfl⟩ := List.append_eq_nil_iff.1 heq.symm
    cases hfirst
  have hname (declares : Bool) : ¬ Separated (Name declares) [] as := by
    rw [separated_iff]
    rintro ⟨first, more, _, _, heq, _, hfirst, _⟩
    obtain ⟨rfl, rfl⟩ := List.append_eq_nil_iff.1 heq.symm
    cases hfirst
  have htail : ¬ BracketTail [] as := by
    rintro ⟨offsets, right, more, heq, _⟩
    have := congrArg List.length heq
    simp at this
  cases place <;> simp [Lacking, Operands, More, hoperand, hname, htail]

end Grammar

end LabelGraph
