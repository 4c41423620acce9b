import LabelGraph.Proofs.Parse.Acceptance
import Mathlib.Data.List.Induction
import Mathlib.Data.List.TakeWhile

/-!
The braces of a text. Whatever stands around a brace, a statement without an error or one
that is passed over, the brace opens or closes a block exactly once. So the braces alone
tell whether a text succeeds, which block it leaves open, and what is reported of blocks.
-/

namespace LabelGraph

structure Brace where
  opens : Bool
  span : Span
deriving DecidableEq, Repr

def Token.brace? (t : Token) : Option Brace :=
  match t.kind with
  | .leftBrace => some { opens := true, span := t.span }
  | .rightBrace => some { opens := false, span := t.span }
  | _ => none

def Action.brace? : Action → Option Brace
  | .openBlock t => some { opens := true, span := t.span }
  | .closeBlock t => some { opens := false, span := t.span }
  | _ => none

def Event.brace? : Event → Option Brace
  | .perform a => a.brace?
  | _ => none

def braces (tokens : List Token) : List Brace := tokens.filterMap Token.brace?

namespace Brace

/-! Counting. -/

/-- The number of open blocks behind a brace. A closing brace with nothing to close does nothing. -/
def next (depth : Nat) (b : Brace) : Nat := if b.opens then depth + 1 else depth - 1

def depth (n : Nat) (l : List Brace) : Nat := l.foldl next n

/-- How many of the braces meet a condition on the number of open blocks in front of them. -/
def countAt (p : Nat → Brace → Bool) (n : Nat) : List Brace → Nat
  | [] => 0
  | b :: l => (if p n b then 1 else 0) + countAt p (b.next n) l

def unmatched : Nat → List Brace → Nat := countAt fun n b => !b.opens && n == 0

def tooDeep (limit : Nat) : Nat → List Brace → Nat := countAt fun n b => b.opens && limit ≤ n

/-- The number of braces that are reported. -/
def faults (limit n : Nat) (l : List Brace) : Nat := unmatched n l + tooDeep limit n l

/-- Every brace finds its partner among the braces. -/
def Balanced (l : List Brace) : Prop := depth 0 l = 0 ∧ unmatched 0 l = 0

@[simp] theorem depth_append (n : Nat) (l l' : List Brace) :
    depth n (l ++ l') = depth (depth n l) l' :=
  List.foldl_append

@[simp] theorem countAt_append (p : Nat → Brace → Bool) (n : Nat) (l l' : List Brace) :
    countAt p n (l ++ l') = countAt p n l + countAt p (depth n l) l' := by
  induction l generalizing n with
  | nil => exact (Nat.zero_add _).symm
  | cons b l ih =>
      have hdepth : depth (b.next n) l = depth n (b :: l) := rfl
      rw [List.cons_append, countAt, countAt, ih, hdepth, Nat.add_assoc]

@[simp] theorem unmatched_append (n : Nat) (l l' : List Brace) :
    unmatched n (l ++ l') = unmatched n l + unmatched (depth n l) l' :=
  countAt_append _ n l l'

@[simp] theorem faults_append (limit n : Nat) (l l' : List Brace) :
    faults limit n (l ++ l') = faults limit n l + faults limit (depth n l) l' := by
  simp [faults, unmatched, tooDeep]
  omega

@[simp] theorem faults_opening {limit n : Nat} (span : Span) :
    faults limit n [⟨true, span⟩] = if limit ≤ n then 1 else 0 := by
  simp [faults, unmatched, tooDeep, countAt]

@[simp] theorem faults_closing {limit n : Nat} (span : Span) :
    faults limit n [⟨false, span⟩] = if n = 0 then 1 else 0 := by
  simp [faults, unmatched, tooDeep, countAt]

/-! The blocks that braces leave open. -/

def nest (outer : List Span) (b : Brace) : List Span :=
  if b.opens then b.span :: outer else outer.tail

def stack (outer : List Span) (l : List Brace) : List Span := l.foldl nest outer

@[simp] theorem stack_append (outer : List Span) (l l' : List Brace) :
    stack outer (l ++ l') = stack (stack outer l) l' :=
  List.foldl_append

@[simp] theorem nest_length (outer : List Span) (b : Brace) :
    (nest outer b).length = b.next outer.length := by
  unfold nest next
  split
  · rfl
  · exact List.length_tail

@[simp] theorem stack_length (outer : List Span) (l : List Brace) :
    (stack outer l).length = depth outer.length l := by
  induction l generalizing outer with
  | nil => rfl
  | cons b l ih =>
      have hnest := ih (nest outer b)
      rwa [nest_length] at hnest

/-- Behind the brace of an open block, only the blocks inside it are left open. -/
theorem stack_getElem {l : List Brace} {i : Nat} {span : Span} (h : (stack [] l)[i]? = some span) :
    ∃ before b after, l = before ++ b :: after ∧ b.opens ∧ b.span = span ∧
      depth 0 after = i ∧ unmatched 0 after = 0 := by
  induction l using List.reverseRecOn generalizing i with
  | nil => cases h
  | append_singleton l b ih =>
    rw [stack_append] at h
    change (nest (stack [] l) b)[i]? = some span at h
    have hmore {k : Nat} (hk : (stack [] l)[k]? = some span) (hnext : b.next k = i)
        (hopen : k ≠ 0 ∨ b.opens) : ∃ before b' after, l ++ [b] = before ++ b' :: after ∧
          b'.opens ∧ b'.span = span ∧ depth 0 after = i ∧ unmatched 0 after = 0 := by
      obtain ⟨before, b', after, rfl, hopens, hspan, rfl, hunmatched⟩ := ih hk
      refine ⟨before, b', after ++ [b], by simp, hopens, hspan, ?_, ?_⟩
      · rw [depth_append]
        exact hnext
      · rw [unmatched_append, hunmatched]
        rcases hopen with hdepth | hb <;> simp_all [unmatched, countAt]
    unfold nest at h
    by_cases hb : b.opens
    · rw [if_pos hb] at h
      cases i with
      | zero =>
        cases h
        exact ⟨l, b, [], rfl, hb, rfl, rfl, rfl⟩
      | succ i => exact hmore h (if_pos hb) (.inr hb)
    · rw [if_neg hb, List.getElem?_tail] at h
      exact hmore h (if_neg hb) (.inl (Nat.succ_ne_zero i))

end Brace

/-! The script. -/

/-- The move does what its token does to the blocks, or leaves the token. The end of the
text is always left. -/
def Move.Braced (t : Token) : Move → Prop
  | .take before after _ =>
    t.kind ≠ .eof ∧ (before ++ after).filterMap Action.brace? = t.brace?.toList
  | .endLine before taken =>
    before.filterMap Action.brace? = [] ∧ (taken = true → t.kind ≠ .eof ∧ t.brace? = none)
  | .endText => t.kind = .eof

namespace Move

variable {t : Token} {next : Place}

theorem braced_afterAction {a : Action} {move : Move} (ha : a.brace? = none) (h : move.Braced t) :
    (move.afterAction a).Braced t := by
  cases move with
  | take before after next => exact ⟨h.1, by simpa [ha] using h.2⟩
  | endLine before taken => exact ⟨by simpa [ha] using h.1, h.2⟩
  | endText => exact h

theorem braced_take {a : Action} (heof : t.kind ≠ .eof) (ha : a.brace? = t.brace?) :
    (take [] [a] next).Braced t := by
  refine ⟨heof, ?_⟩
  rw [← ha]
  cases hbrace : a.brace? with
  | none => exact List.filterMap_cons_none hbrace
  | some b => exact List.filterMap_cons_some hbrace

theorem braced_pass (heof : t.kind ≠ .eof) (hbrace : t.brace? = none) :
    (take [] [] next).Braced t :=
  ⟨heof, by rw [hbrace]; rfl⟩

theorem braced_passOver : (passOver t).Braced t := by
  unfold passOver
  split
  case h_1 ht => exact ⟨rfl, fun _ => by simp [Token.brace?, ht]⟩
  case h_5 hleft hright heof => exact braced_pass heof (by simp [Token.brace?])
  all_goals exact ⟨rfl, nofun⟩

theorem braced_reject (wanted : Wanted) : (reject t wanted).Braced t :=
  braced_afterAction rfl braced_passOver

theorem braced_finish : (finish t).Braced t := by
  unfold finish
  split
  · exact braced_passOver
  · exact braced_reject _

theorem braced_operand : (operand t).Braced t := by
  unfold operand
  split
  case h_1 ht => exact braced_take (by simp [ht]) (by simp [Token.brace?, Action.brace?, ht])
  all_goals
    first
    | exact braced_reject _
    | exact braced_pass (by simp [*]) (by simp [Token.brace?, *])

theorem braced_operands : (operands t).Braced t := by
  unfold operands
  split
  · exact braced_passOver
  · exact braced_operand

end Move

theorem move_braced (place : Place) (t : Token) : (place.move t).Braced t := by
  cases place with
  | item =>
    simp only [Place.move]
    split
    case h_1 ht => exact ht
    case h_2 ht => exact ⟨rfl, fun _ => by simp [Token.brace?, ht]⟩
    case h_5 ht => exact Move.braced_pass (by simp [ht]) (by simp [Token.brace?, ht])
    case h_7 => exact Move.braced_reject _
    -- A brace is consumed by the action that opens or closes the block.
    all_goals exact Move.braced_take (by simp [*]) (by simp [Token.brace?, Action.brace?, *])
  | afterName word =>
    simp only [Place.move]
    split
    case h_1 ht =>
      exact Move.braced_take (by simp [ht]) (by simp [Token.brace?, Action.brace?, ht])
    case h_2 => exact Move.braced_afterAction rfl Move.braced_operands
  | operands => exact Move.braced_operands
  | operand => exact Move.braced_operand
  | recovery => exact Move.braced_passOver
  | base =>
    simp only [Place.move]
    split
    case h_1 ht => exact Move.braced_take (by simp [ht]) (by simp [Token.brace?, Action.brace?, ht])
    all_goals
      first
      | exact Move.braced_reject _
      | exact Move.braced_pass (by simp [*]) (by simp [Token.brace?, *])
  | name declares =>
    have hword : (if declares then .declareExternal t else .intern t : Action).brace? = none := by
      cases declares <;> rfl
    simp only [Place.move]
    split
    case h_3 => exact Move.braced_reject _
    all_goals exact Move.braced_take (by simp [*]) (by simp [Token.brace?, *])
  | _ =>
    simp only [Place.move]
    split
    all_goals
      first
      | exact Move.braced_reject _
      | exact Move.braced_finish
      | exact Move.braced_pass (by simp [*]) (by simp [Token.brace?, *])

theorem brace_perform : Event.brace? ∘ Event.perform = Action.brace? := rfl

theorem Event.brace?_of_pass {e : Event} (he : ∀ a, e ≠ .perform a) : e.brace? = none := by
  cases e with
  | perform a => exact absurd rfl (he a)
  | _ => rfl

@[simp] theorem braces_cons (t : Token) (tokens : List Token) :
    braces (t :: tokens) = t.brace?.toList ++ braces tokens := by
  unfold braces
  cases ht : t.brace? with
  | none => rw [List.filterMap_cons_none ht]; rfl
  | some b => rw [List.filterMap_cons_some ht]; rfl

theorem Grammar.Ended.rest {t : Token} {tokens : List Token} (h : Ended (t :: tokens))
    (ht : t.kind ≠ .eof) : Ended tokens := by
  cases h with
  | last heof => exact absurd heof ht
  | cons _ hrest => exact hrest

/-- Whatever stands around the braces, the script of a text opens or closes a block once
for each of them, up to the first corrupt token. -/
theorem script_braces {place : Place} {tokens : List Token} (hend : Grammar.Ended tokens) :
    (script place tokens).1.filterMap Event.brace? =
      braces (tokens.takeWhile (·.kind ≠ .corrupt)) := by
  induction place, tokens using script_induct with
  | nil place => cases hend
  | corrupt place t rest ht =>
    rw [script_corrupt ht, List.takeWhile_cons_of_neg (by simp [ht])]
    rfl
  | take place t rest before after next ht hmove ih =>
    have hbraced := move_braced place t
    rw [hmove] at hbraced
    obtain ⟨heof, hactions⟩ := hbraced
    rw [script_take ht hmove, List.takeWhile_cons_of_pos (by simpa using ht), braces_cons,
      ← hactions, ← ih (hend.rest heof)]
    simp [List.filterMap_cons, brace_perform, Event.brace?]
  | newline place t rest before ht hmove ih =>
    have hbraced := move_braced place t
    rw [hmove] at hbraced
    obtain ⟨hactions, htaken⟩ := hbraced
    obtain ⟨heof, hnone⟩ := htaken rfl
    rw [script_newline ht hmove, List.takeWhile_cons_of_pos (by simpa using ht), braces_cons,
      hnone, ← ih (hend.rest heof)]
    simp [List.filterMap_cons, brace_perform, Event.brace?, hactions]
  | leave place t rest before ht hmove ih =>
    have hbraced := move_braced place t
    rw [hmove] at hbraced
    rw [script_leave ht hmove, ← ih hend]
    simp [List.filterMap_cons, brace_perform, Event.brace?, hbraced.1]
  | endText place t rest ht hmove =>
    have hbraced := move_braced place t
    rw [hmove] at hbraced
    have hnone : t.brace? = none := by
      rw [Token.brace?, hbraced]
    have hrest : rest = [] := by
      cases hend with
      | last => rfl
      | cons heof => exact absurd hbraced heof
    rw [script_endText ht hmove, List.takeWhile_cons_of_pos (by simpa using ht), braces_cons,
      hnone, hrest]
    rfl

/-! The state of a parse. -/

namespace Parse

variable {p q : Parse} {m m' : Ledger} {a : Action}

def openSpans (p : Parse) : List Span := (p.blocks.toList.map Block.span).reverse

def unbalanced (p : Parse) : Nat := p.diagnostics.toList.countP (·.code == Code.unbalanced)

@[simp] theorem openSpans_length (p : Parse) : p.openSpans.length = p.blocks.size := by
  simp [openSpans]

theorem openSpans_head (p : Parse) : p.openSpans[0]? = p.blocks.back?.map Block.span := by
  rw [openSpans, ← List.head?_eq_getElem?, List.head?_reverse, List.getLast?_map,
    Array.getLast?_toList]

theorem unbalanced_push {d : Diagnostic} (h : q.diagnostics = p.diagnostics.push d) :
    q.unbalanced = p.unbalanced + if d.code = Code.unbalanced then 1 else 0 := by
  simp [unbalanced, h, List.countP_append]

theorem unbalanced_other {d : Diagnostic} (h : q.diagnostics = p.diagnostics.push d)
    (hd : d.code ≠ Code.unbalanced) : q.unbalanced = p.unbalanced := by
  rw [unbalanced_push h, if_neg hd, Nat.add_zero]

theorem unbalanced_brace {d : Diagnostic} (h : q.diagnostics = p.diagnostics.push d)
    (hd : d.code = Code.unbalanced) : q.unbalanced = p.unbalanced + 1 := by
  rw [unbalanced_push h, if_pos hd]

theorem unexpected_code (t : Token) (wanted : Wanted) :
    (unexpected t wanted).code ≠ Code.unbalanced := by
  unfold unexpected
  split
  · exact (by decide : Code.lexical ≠ Code.unbalanced)
  · exact (by decide : Code.unexpected ≠ Code.unbalanced)

theorem Effect.settings (h : Effect p m a q m') : q.settings = p.settings := by
  cases h <;> rfl

theorem Effect.openSpans (h : Effect p m a q m') :
    q.openSpans = Brace.stack p.openSpans a.brace?.toList := by
  cases h with
  | openBlock => simp [Parse.openSpans, Action.brace?, Brace.stack, Brace.nest]
  | closeBlock hblock => simp [Parse.openSpans, Action.brace?, Brace.stack, Brace.nest]
  | unmatched hnone =>
    have hempty : p.blocks = #[] := Array.back?_eq_none_iff.1 hnone
    simp [Parse.openSpans, Action.brace?, Brace.stack, Brace.nest, hempty]
  | _ => rfl

theorem Effect.unbalanced (h : Effect p m a q m') :
    q.unbalanced = p.unbalanced +
      Brace.faults p.settings.maxBlockDepth.toNat p.blocks.size a.brace?.toList := by
  have hduplicate : Code.duplicate ≠ Code.unbalanced := by decide
  have hunexpected : Code.unexpected ≠ Code.unbalanced := by decide
  have hother {b : Action} (hb : b.brace? = none) (h : q.unbalanced = p.unbalanced) :
      q.unbalanced = p.unbalanced +
        Brace.faults p.settings.maxBlockDepth.toNat p.blocks.size b.brace?.toList := by
    rw [hb, h]
    rfl
  cases h with
  | oldLabel => exact hother rfl (unbalanced_other rfl hduplicate)
  | oldExternal => exact hother rfl (unbalanced_other rfl hduplicate)
  | outside => exact hother rfl (unbalanced_other rfl hunexpected)
  | @openBlock brace =>
    rw [Action.brace?, Option.toList_some, Brace.faults_opening]
    by_cases hdeep : p.settings.maxBlockDepth.toNat ≤ p.blocks.size
    · rw [unbalanced_brace (p := p) (if_pos hdeep) rfl, if_pos hdeep]
    · rw [if_neg hdeep, if_neg hdeep]
      rfl
  | @closeBlock brace block hblock =>
    have hsize : p.blocks.size ≠ 0 := by
      intro hzero
      rw [Array.eq_empty_of_size_eq_zero hzero] at hblock
      cases hblock
    rw [Action.brace?, Option.toList_some, Brace.faults_closing, if_neg hsize]
    rfl
  | @unmatched brace hnone =>
    have hsize : p.blocks.size = 0 := by
      rw [Array.back?_eq_none_iff.1 hnone, Array.size_empty]
    rw [Action.brace?, Option.toList_some, Brace.faults_closing, if_pos hsize]
    exact unbalanced_brace rfl rfl
  | reject => exact hother rfl (unbalanced_other rfl (unexpected_code _ _))
  | _ => exact hother rfl rfl

theorem Course.openSpans {events : List Event} (h : Course events p m q m') :
    q.openSpans = Brace.stack p.openSpans (events.filterMap Event.brace?) := by
  induction h with
  | nil => rfl
  | @act a events _ _ _ _ _ _ heffect _ _ ih =>
    rw [ih, heffect.openSpans, ← Brace.stack_append]
    cases hbrace : a.brace? <;> simp [Event.brace?, hbrace]
  | @pass e _ _ _ _ _ _ _ _ he _ ih =>
    rw [ih, List.filterMap_cons_none (Event.brace?_of_pass he)]
    rfl

theorem Course.unbalanced {events : List Event} (h : Course events p m q m') :
    q.unbalanced = p.unbalanced + Brace.faults p.settings.maxBlockDepth.toNat p.blocks.size
      (events.filterMap Event.brace?) := by
  induction h with
  | nil => rfl
  | @act a events p q r _ _ _ heffect _ _ ih =>
    have hdepth : q.blocks.size = Brace.depth p.blocks.size a.brace?.toList := by
      rw [← openSpans_length, heffect.openSpans, Brace.stack_length, openSpans_length]
    rw [ih, heffect.unbalanced, heffect.settings, hdepth, Nat.add_assoc, ← Brace.faults_append]
    cases hbrace : a.brace? <;> simp [Event.brace?, hbrace]
  | @pass e _ _ _ _ _ _ _ _ he _ ih =>
    rw [ih, List.filterMap_cons_none (Event.brace?_of_pass he)]
    rfl

theorem resolvePending_braces (hp : p.Sound m) (h : resolvePending p = .ok () q) :
    q.openSpans = p.openSpans ∧ q.unbalanced = p.unbalanced := by
  obtain ⟨m', graph, diagnostics, rfl, -, -, -, hdiagnostics⟩ := resolvePending_ok hp h
  have hnone (rs : List Reference) :
      (rs.map p.undefinedLabel).countP (·.code == Code.unbalanced) = 0 := by
    rw [List.countP_eq_zero]
    intro d hd
    obtain ⟨r, -, rfl⟩ := List.mem_map.1 hd
    exact Bool.false_ne_true
  refine ⟨rfl, ?_⟩
  rw [Parse.unbalanced, hdiagnostics, List.countP_append, hnone, Nat.add_zero]
  rfl

/-- The blocks that the braces of a text leave open are open when all is resolved. -/
theorem Finishes.braces {source : List UInt8} {settings : Settings} {played resolved : Parse}
    (h : Finishes source settings played resolved)
    (hcorrupt : ∀ t ∈ tokenize source, t.kind ≠ .corrupt) :
    resolved.openSpans = Brace.stack [] (braces (tokenize source)) ∧
      resolved.unbalanced =
        Brace.faults settings.maxBlockDepth.toNat 0 (braces (tokenize source)) := by
  obtain ⟨⟨-, hplay, hresolve⟩, -⟩ := h
  obtain ⟨m', hplayed, hcourse⟩ := playAll_ok (started_sound source settings) hplay
  obtain ⟨hspans, hcount⟩ := resolvePending_braces hplayed hresolve
  have hended : Grammar.Ended (tokenize source) := Scanner.tokens_ended _
  have hscript : (script .item (tokenize source)).1.filterMap Event.brace? =
      LabelGraph.braces (tokenize source) := by
    rw [script_braces hended, List.takeWhile_eq_self_iff.2 (by simpa using hcorrupt)]
  obtain ⟨symbols, seedError, hsource, -⟩ := ofSource_eq source settings
  rw [hspans, hcount, hcourse.openSpans, hcourse.unbalanced, hscript, hsource]
  constructor
  · rfl
  · exact Nat.zero_add _

end Parse

/-- The braces of a text decide how a parse ends that is not cut short, and how many of
its diagnostics are about braces. -/
theorem parse_braces (source : List UInt8) (settings : Settings)
    (hcorrupt : ∀ t ∈ tokenize source, t.kind ≠ .corrupt) (hlimit : settings.maxDiagnostics = none)
    (hroom : ¬ (parse source settings).FailedWith Code.capacity) :
    ((parse source settings).phase = .succeeded ↔
        Brace.depth 0 (braces (tokenize source)) = 0) ∧
      (Brace.depth 0 (braces (tokenize source)) ≠ 0 →
        (parse source settings).phase = .failed ∧
          ∃ before b after d, braces (tokenize source) = before ++ b :: after ∧ b.opens ∧
            Brace.Balanced after ∧ (parse source settings).diagnostics.back? = some d ∧
            d.code = Code.unclosed ∧ d.span = b.span) ∧
      (parse source settings).unbalanced =
        Brace.unmatched 0 (braces (tokenize source)) +
          Brace.tooDeep settings.maxBlockDepth.toNat 0 (braces (tokenize source)) := by
  obtain ⟨played, resolved, hfinishes⟩ := Parse.finishes_of_unlimited hcorrupt hlimit hroom
  obtain ⟨hspans, hcount⟩ := hfinishes.braces hcorrupt
  have hdepth : resolved.blocks.size = Brace.depth 0 (braces (tokenize source)) := by
    rw [← Parse.openSpans_length, hspans, Brace.stack_length]
    rfl
  have hhead := Parse.openSpans_head resolved
  rw [hspans] at hhead
  rw [hfinishes.parse_eq, ← hdepth]
  cases hback : resolved.blocks.back? with
  | none =>
    have hsize : resolved.blocks.size = 0 := by
      rw [Array.back?_eq_none_iff.1 hback, Array.size_empty]
    exact ⟨⟨fun _ => hsize, fun _ => rfl⟩, fun hopen => absurd hsize hopen, hcount⟩
  | some block =>
    have hsize : resolved.blocks.size ≠ 0 := by
      intro hzero
      rw [Array.eq_empty_of_size_eq_zero hzero] at hback
      cases hback
    rw [hback] at hhead
    obtain ⟨before, b, after, hsplit, hopens, hspan, hafter⟩ := Brace.stack_getElem hhead
    refine ⟨⟨(nomatch ·), fun hzero => absurd hzero hsize⟩, fun _ => ⟨rfl, ?_⟩, ?_⟩
    · exact ⟨before, b, after, _, hsplit, hopens, hafter, Array.back?_push, rfl, hspan.symm⟩
    · rw [← Brace.faults, ← hcount]
      exact Parse.unbalanced_other rfl (by decide : Code.unclosed ≠ Code.unbalanced)

theorem parse_braces_inside_operand :
    (parse "mov [ \x7b\n\x7d \x7d\n\x7b".toUTF8.toList
        { maxDiagnostics := none, maxBlockDepth := 0 }).phase = .failed ∧
      (parse "mov [ \x7b\n\x7d \x7d\n\x7b".toUTF8.toList
        { maxDiagnostics := none, maxBlockDepth := 0 }).unbalanced = 3 := by
  obtain ⟨-, hopen, hcount⟩ := parse_braces "mov [ \x7b\n\x7d \x7d\n\x7b".toUTF8.toList
    { maxDiagnostics := none, maxBlockDepth := 0 } (by decide +kernel) rfl
    (Parse.not_capacity_of_short (by decide +kernel))
  exact ⟨(hopen (by decide +kernel)).1, hcount.trans (by decide +kernel)⟩

end LabelGraph
