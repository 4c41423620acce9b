import LabelGraph.Proofs.Parse.Acceptance

/-!
The segments of a text. The tokens are cut behind each boundary, and the script of a segment
rejects one token at most, wherever in a statement the error is found. From the rejected token
on it moves over what stands in front of the boundary. A boundary that is rejected itself is
read once more as an item, where no boundary is rejected.
-/

namespace LabelGraph

open Grammar (NoReject noReject_nil noReject_refer)

/-- The tokens in front of the first corrupt one, which are all that a parse looks at. -/
def intact (tokens : List Token) : List Token := tokens.takeWhile (·.kind ≠ .corrupt)

/-- The tokens, cut behind each boundary. -/
def segments : List Token → List (List Token)
  | [] => []
  | t :: rest =>
    if t.kind.isBoundary then [t] :: segments rest
    else (t :: (segments rest).headD []) :: (segments rest).tail

def upToBoundary (tokens : List Token) : List Token := tokens.takeWhile (!·.kind.isBoundary)

section Segments

variable {t : Token} {rest : List Token}

theorem segments_boundary (ht : t.kind.isBoundary) :
    segments (t :: rest) = [t] :: segments rest := by
  rw [segments, if_pos ht]

theorem segments_inner (ht : ¬ t.kind.isBoundary) :
    segments (t :: rest) = (t :: (segments rest).headD []) :: (segments rest).tail := by
  rw [segments, if_neg ht]

theorem intact_cons (ht : t.kind ≠ .corrupt) : intact (t :: rest) = t :: intact rest := by
  simp [intact, ht]

@[simp] theorem flatten_segments (tokens : List Token) : (segments tokens).flatten = tokens := by
  induction tokens with
  | nil => rfl
  | cons t rest ih =>
    rw [segments]
    split
    · rw [List.flatten_cons, ih]
      rfl
    · cases hrest : segments rest with
      | nil =>
        rw [hrest] at ih
        rw [← ih]
        rfl
      | cons s more =>
        rw [hrest] at ih
        rw [← ih]
        rfl

/-- Within a segment there is no boundary but its last token, and one that others follow ends
with a boundary. -/
theorem segments_cut {tokens segment : List Token} {before behind : List (List Token)}
    (h : segments tokens = before ++ segment :: behind) :
    ∃ front last, segment = front ++ [last] ∧ (∀ t ∈ front, ¬ t.kind.isBoundary) ∧
      (behind ≠ [] → last.kind.isBoundary) := by
  induction tokens generalizing before segment with
  | nil =>
    have := congrArg List.length h
    simp [segments] at this
  | cons t rest ih =>
    by_cases ht : t.kind.isBoundary
    · rw [segments_boundary ht] at h
      cases before with
      | nil =>
        cases h
        exact ⟨[], t, rfl, by simp, fun _ => ht⟩
      | cons s before => exact ih (List.cons.inj h).2
    · rw [segments_inner ht] at h
      cases before with
      | nil =>
        obtain ⟨rfl, htail⟩ := List.cons.inj h
        cases hrest : segments rest with
        | nil =>
          rw [hrest] at htail
          exact ⟨[], t, rfl, by simp, fun hne => absurd htail.symm hne⟩
        | cons s more =>
          rw [hrest] at htail
          obtain rfl : more = behind := htail
          have hfirst : segments rest = [] ++ s :: more := hrest
          obtain ⟨front, last, hs, hfront, hlast⟩ := ih hfirst
          refine ⟨t :: front, last, ?_, List.forall_mem_cons.2 ⟨ht, hfront⟩, hlast⟩
          rw [List.headD_cons, hs]
          rfl
      | cons s before =>
        have htail := (List.cons.inj h).2
        cases hrest : segments rest with
        | nil =>
          rw [hrest] at htail
          exact absurd htail (by simp)
        | cons first more =>
          rw [hrest] at htail
          have hmore : segments rest = (first :: before) ++ segment :: behind := by
            rw [hrest]
            exact congrArg (first :: ·) htail
          exact ih hmore

end Segments

/-! The table, seen from the errors it reports. -/

/-- The move reports its token as an error, or reports nothing. Behind an error it leads into
recovery, unless the token is a boundary. -/
inductive Move.Faults (t : Token) : Move → Option Wanted → Prop
  | take {before after : List Action} {next : Place} {fault : Option Wanted}
    (hbefore : NoReject before) (hafter : NoReject after)
    (hskip : fault ≠ none → after = [] ∧ next = .recovery ∧ ¬ t.kind.isBoundary) :
    Faults t (.take (before ++ (fault.map (.reject t)).toList) after next) fault
  | endLine {before : List Action} {taken : Bool} {fault : Option Wanted}
    (ht : t.kind.isBoundary) (hbefore : NoReject before) :
    Faults t (.endLine (before ++ (fault.map (.reject t)).toList) taken) fault
  | endText (ht : t.kind.isBoundary) : Faults t .endText none

namespace Move

variable {t : Token} {fault : Option Wanted}

theorem faults_clean {before after : List Action} {next : Place} (hbefore : NoReject before)
    (hafter : NoReject after) : (Move.take before after next).Faults t none := by
  have hmove : (Move.take (before ++ []) after next).Faults t none :=
    .take hbefore hafter fun hne => absurd rfl hne
  rwa [List.append_nil] at hmove

theorem faults_end (ht : t.kind.isBoundary) (fault : Option Wanted) (taken : Bool) :
    (Move.endLine (fault.map (.reject t)).toList taken).Faults t fault := by
  have hmove : (Move.endLine ([] ++ (fault.map (.reject t)).toList) taken).Faults t fault :=
    .endLine ht noReject_nil
  rwa [List.nil_append] at hmove

theorem faults_pass {next : Place} : (Move.take [] [] next).Faults t none :=
  faults_clean noReject_nil noReject_nil

theorem faults_afterAction {a : Action} {move : Move} (ha : NoReject [a])
    (h : move.Faults t fault) : (move.afterAction a).Faults t fault := by
  have hmore {before : List Action} (hbefore : NoReject before) : NoReject (a :: before) := by
    intro u wanted hmem
    rcases List.mem_cons.1 hmem with rfl | hmem
    · exact ha u wanted (List.mem_cons_self ..)
    · exact hbefore u wanted hmem
  cases h with
  | take hbefore hafter hskip => exact .take (hmore hbefore) hafter hskip
  | endLine ht hbefore => exact .endLine ht (hmore hbefore)
  | endText ht => exact .endText ht

theorem faults_passOver : (passOver t).Faults t none := by
  unfold passOver
  split
  case h_5 => exact faults_pass
  all_goals next ht => exact faults_end (by rw [ht]; rfl) none _

theorem passOver_take {before after : List Action} {next : Place}
    (h : passOver t = .take before after next) : before = [] ∧ after = [] ∧ next = .recovery := by
  unfold passOver at h
  split at h
  case h_5 =>
    cases h
    exact ⟨rfl, rfl, rfl⟩
  all_goals cases h

theorem faults_reject (wanted : Wanted) : (reject t wanted).Faults t (some wanted) := by
  unfold reject passOver
  split
  case h_5 hnewline hleft hright heof =>
    have hinner : ¬ t.kind.isBoundary := by
      cases ht : t.kind <;> simp_all [Kind.isBoundary]
    have hmove : (Move.take ([] ++ ((some wanted).map (.reject t)).toList) [] .recovery).Faults t
        (some wanted) := .take noReject_nil noReject_nil fun _ => ⟨rfl, rfl, hinner⟩
    exact hmove
  all_goals next ht => exact faults_end (by rw [ht]; rfl) (some wanted) _

theorem faults_finish : ∃ fault, (finish t).Faults t fault := by
  unfold finish
  split
  · exact ⟨_, faults_passOver⟩
  · exact ⟨_, faults_reject _⟩

theorem faults_operand : ∃ fault, (operand t).Faults t fault := by
  unfold operand
  split
  case h_1 => exact ⟨_, faults_clean noReject_nil (noReject_refer t _)⟩
  case h_7 => exact ⟨_, faults_reject _⟩
  all_goals exact ⟨_, faults_pass⟩

theorem faults_operands : ∃ fault, (operands t).Faults t fault := by
  unfold operands
  split
  · exact ⟨_, faults_passOver⟩
  · exact faults_operand

theorem Faults.of_boundary {before after : List Action} {next : Place}
    (h : (Move.take before after next).Faults t fault) (ht : t.kind.isBoundary) :
    fault = none := by
  cases h with
  | take _ _ hskip => exact Decidable.by_contra fun hne => (hskip hne).2.2 ht

theorem Faults.boundary {before : List Action} {taken : Bool}
    (h : (Move.endLine before taken).Faults t fault) : t.kind.isBoundary := by
  cases h with
  | endLine ht _ => exact ht

end Move

/-- The next token is not rejected: the line is in recovery, or a boundary is read as an item. -/
def Silent (place : Place) (tokens : List Token) : Prop :=
  place = .recovery ∨ place = .item ∧ ∃ t ∈ tokens.head?, t.kind.isBoundary

theorem Silent.recovery {place : Place} {t : Token} {rest : List Token}
    (h : Silent place (t :: rest)) (ht : ¬ t.kind.isBoundary) : place = .recovery := by
  rcases h with h | ⟨-, u, hu, hboundary⟩
  · exact h
  · cases hu
    exact absurd hboundary ht

open Move in
theorem place_faults (place : Place) (t : Token) : ∃ fault, (place.move t).Faults t fault := by
  cases place with
  | recovery => exact ⟨_, faults_passOver⟩
  | operands => exact faults_operands
  | operand => exact faults_operand
  | item =>
    simp only [Place.move]
    split
    case h_1 ht => exact ⟨_, .endText (by rw [ht]; rfl)⟩
    case h_2 ht => exact ⟨_, faults_end (by rw [ht]; rfl) none _⟩
    case h_3 => exact ⟨_, faults_clean noReject_nil (by simp [NoReject])⟩
    case h_4 => exact ⟨_, faults_clean noReject_nil (by simp [NoReject])⟩
    case h_5 => exact ⟨_, faults_pass⟩
    case h_6 => exact ⟨_, faults_clean noReject_nil (by simp [NoReject])⟩
    case h_7 => exact ⟨_, faults_reject _⟩
  | afterName word =>
    simp only [Place.move]
    split
    · exact ⟨_, faults_clean noReject_nil (by simp [NoReject])⟩
    · exact faults_operands.imp fun _ => faults_afterAction (by simp [NoReject])
  | number =>
    simp only [Place.move]
    split
    · exact ⟨_, faults_pass⟩
    · exact ⟨_, faults_reject _⟩
  | base =>
    simp only [Place.move]
    split
    · exact ⟨_, faults_clean noReject_nil (noReject_refer t _)⟩
    · exact ⟨_, faults_pass⟩
    · exact ⟨_, faults_pass⟩
    · exact ⟨_, faults_reject _⟩
  | bracketTail =>
    simp only [Place.move]
    split
    · exact ⟨_, faults_pass⟩
    · exact ⟨_, faults_pass⟩
    · exact ⟨_, faults_pass⟩
    · exact ⟨_, faults_reject _⟩
  | offset =>
    simp only [Place.move]
    split
    · exact ⟨_, faults_pass⟩
    · exact ⟨_, faults_pass⟩
    · exact ⟨_, faults_reject _⟩
  | operandEnd =>
    simp only [Place.move]
    split
    · exact ⟨_, faults_pass⟩
    · exact faults_finish
  | name declares =>
    have hname : NoReject [if declares then .declareExternal t else .intern t] := by
      cases declares <;> simp [NoReject]
    simp only [Place.move]
    split
    · exact ⟨_, faults_clean noReject_nil hname⟩
    · exact ⟨_, faults_clean noReject_nil hname⟩
    · exact ⟨_, faults_reject _⟩
  | nameEnd declares =>
    simp only [Place.move]
    split
    · exact ⟨_, faults_pass⟩
    · exact faults_finish

open Move in
theorem silent_faults {place : Place} {t : Token} {rest : List Token}
    (h : Silent place (t :: rest)) : (place.move t).Faults t none := by
  rcases h with rfl | ⟨rfl, u, hu, hboundary⟩
  · exact faults_passOver
  cases hu
  simp only [Place.move]
  split
  case h_1 => exact .endText hboundary
  case h_2 => exact faults_end hboundary none _
  case h_3 => exact faults_clean noReject_nil (by simp [NoReject])
  case h_4 => exact faults_clean noReject_nil (by simp [NoReject])
  case h_5 ht => simp [ht, Kind.isBoundary] at hboundary
  case h_6 ht => simp [ht, Kind.isBoundary] at hboundary
  case h_7 => cases ht : t.kind <;> simp_all [Kind.isBoundary]

theorem move_faults (place : Place) (t : Token) (rest : List Token) :
    ∃ fault, (place.move t).Faults t fault ∧ (Silent place (t :: rest) → fault = none) := by
  by_cases hsilent : Silent place (t :: rest)
  · exact ⟨none, silent_faults hsilent, fun _ => rfl⟩
  · obtain ⟨fault, hfault⟩ := place_faults place t
    exact ⟨fault, hfault, fun h => absurd h hsilent⟩

/-! The script, cut like the tokens. -/

section Script

open Parse (rejection?)

def skipping (tokens : List Token) : List Event := (upToBoundary tokens).map .consume

theorem skipping_inner {t : Token} (ht : ¬ t.kind.isBoundary) (rest : List Token) :
    skipping (t :: rest) = .consume t :: skipping rest := by
  rw [skipping, upToBoundary, List.takeWhile_cons_of_pos (by simpa using ht)]
  rfl

theorem skipping_boundary {t : Token} (ht : t.kind.isBoundary) (rest : List Token) :
    skipping (t :: rest) = [] := by
  rw [skipping, upToBoundary, List.takeWhile_cons_of_neg (by simpa using ht)]
  rfl

theorem rejections_append {first later : List Event} (hfirst : first.filterMap rejection? = [])
    (hlater : later.filterMap rejection? = []) : (first ++ later).filterMap rejection? = [] := by
  rw [List.filterMap_append, hfirst, hlater, List.append_nil]

@[simp] theorem rejections_skipping (tokens : List Token) :
    (skipping tokens).filterMap rejection? = [] := by
  rw [List.filterMap_eq_nil_iff]
  intro e he
  obtain ⟨t, -, rfl⟩ := List.mem_map.1 he
  rfl

theorem rejections_clean {actions : List Action} (h : NoReject actions) :
    (actions.map Event.perform).filterMap rejection? = [] := by
  rw [List.filterMap_eq_nil_iff]
  intro e he
  obtain ⟨a, ha, rfl⟩ := List.mem_map.1 he
  cases a with
  | reject u wanted => exact absurd ha (h u wanted)
  | _ => rfl

/-- The events of a segment. None of them rejects a token, or one does, and then those behind
it move over the tokens in front of the boundary and reject nothing more. -/
inductive Share : List Token → List Event → Prop
  | clean {segment : List Token} {events : List Event} (h : events.filterMap rejection? = []) :
    Share segment events
  | fault (front behind : List Token) (t : Token) (wanted : Wanted) {before after : List Event}
    (hbefore : before.filterMap rejection? = []) (hafter : after.filterMap rejection? = []) :
    Share (front ++ t :: behind)
      (before ++ .perform (.reject t wanted) :: (skipping (t :: behind) ++ after))

namespace Share

variable {segment : List Token} {first events : List Event}

theorem cons (h : Share segment events) (t : Token) : Share (t :: segment) events := by
  cases h with
  | clean h => exact .clean h
  | fault front behind u wanted hbefore hafter =>
    exact .fault (t :: front) behind u wanted hbefore hafter

theorem behind (hfirst : first.filterMap rejection? = []) (h : Share segment events) :
    Share segment (first ++ events) := by
  cases h with
  | clean h => exact .clean (rejections_append hfirst h)
  | fault front behind t wanted hbefore hafter =>
    rw [← List.append_assoc]
    exact .fault front behind t wanted (rejections_append hfirst hbefore) hafter

end Share

variable {t : Token} {segs : List (List Token)} {parts : List (List Event)}

theorem headD_append_flatten (parts : List (List Event)) :
    parts.headD [] ++ parts.tail.flatten = parts.flatten := by
  cases parts <;> rfl

/-- The first segment is left without a rejection, and its first events lead to its boundary. -/
def Quiet (segs : List (List Token)) (parts : List (List Event)) : Prop :=
  ∃ after, after.filterMap rejection? = [] ∧ parts.headD [] = skipping (segs.headD []) ++ after

theorem Quiet.rejections (h : Quiet segs parts) : (parts.headD []).filterMap rejection? = [] := by
  obtain ⟨after, hafter, hhead⟩ := h
  rw [hhead]
  exact rejections_append (rejections_skipping _) hafter

theorem quiet_boundary {events : List Event} (ht : t.kind.isBoundary)
    (h : events.filterMap rejection? = []) : Quiet ([t] :: segs) (events :: parts) := by
  refine ⟨events, h, ?_⟩
  rw [List.headD_cons, List.headD_cons, skipping_boundary ht, List.nil_append]

theorem share_headD (h : List.Forall₂ Share segs parts) :
    Share (segs.headD []) (parts.headD []) := by
  cases h with
  | nil => exact .clean rfl
  | cons hshare _ => exact hshare

theorem share_tail (h : List.Forall₂ Share segs parts) :
    List.Forall₂ Share segs.tail parts.tail := by
  cases h with
  | nil => exact .nil
  | cons _ hmore => exact hmore

def moving (t : Token) (before after : List Action) : List Event :=
  before.map .perform ++ .consume t :: after.map .perform

theorem rejections_moving {before after : List Action} {next : Place}
    (hmove : (Move.take before after next).Faults t none) :
    (moving t before after).filterMap rejection? = [] := by
  cases hmove with
  | @take before _ _ _ hbefore hafter _ =>
    rw [moving, Option.map_none, Option.toList_none, List.append_nil]
    refine rejections_append (rejections_clean hbefore) ?_
    rw [List.filterMap_cons_none rfl, rejections_clean hafter]

/-- The events of a move that stays in its segment, in front of those of the rest of it. -/
theorem share_moving {before after : List Action} {next : Place} {fault : Option Wanted}
    (hmove : (Move.take before after next).Faults t fault)
    (h : Share (segs.headD []) (parts.headD [])) (ht : ¬ t.kind.isBoundary)
    (hquiet : next = .recovery → Quiet segs parts) :
    Share (t :: segs.headD []) (moving t before after ++ parts.headD []) := by
  cases fault with
  | none => exact (h.cons t).behind (rejections_moving hmove)
  | some wanted =>
    cases hmove with
    | @take before _ _ _ hbefore _ hskip =>
      -- Behind the rejected token the line is in recovery, where nothing is rejected.
      obtain ⟨rfl, rfl, -⟩ := hskip (by simp)
      obtain ⟨rest, hrest, hhead⟩ := hquiet rfl
      have hshare := Share.fault [] (segs.headD []) t wanted (rejections_clean hbefore) hrest
      rw [hhead]
      simpa [moving, skipping_inner ht] using hshare

/-- The events of a move that ends its line, with what the boundary still leads to. -/
theorem share_boundary {before : List Action} {taken : Bool} {fault : Option Wanted}
    (hmove : (Move.endLine before taken).Faults t fault) {after : List Event}
    (hafter : after.filterMap rejection? = []) :
    Share [t] (before.map .perform ++ after) ∧
      (fault = none → Quiet ([t] :: segs) ((before.map .perform ++ after) :: parts)) := by
  cases hmove with
  | @endLine before _ _ ht hbefore =>
    cases fault with
    | none =>
      have hclean : (((before ++ []).map .perform) ++ after).filterMap rejection? = [] := by
        rw [List.append_nil]
        exact rejections_append (rejections_clean hbefore) hafter
      exact ⟨.clean hclean, fun _ => quiet_boundary ht hclean⟩
    | some wanted =>
      have hshare := Share.fault [] [] t wanted (rejections_clean hbefore) hafter
      refine ⟨?_, fun hnone => by cases hnone⟩
      simpa [skipping_boundary ht] using hshare

/-- The script is cut like the tokens. -/
theorem script_shares (place : Place) (tokens : List Token) :
    ∃ parts, List.Forall₂ Share (segments (intact tokens)) parts ∧
      (script place tokens).1 = parts.flatten ∧
      (Silent place tokens → Quiet (segments (intact tokens)) parts) := by
  induction place, tokens using script_induct with
  | nil place => exact ⟨[], .nil, by rw [script_nil]; rfl, fun _ => ⟨[], rfl, rfl⟩⟩
  | corrupt place t rest ht =>
    have hnone : intact (t :: rest) = [] := List.takeWhile_cons_of_neg (by simpa using ht)
    rw [hnone, script_corrupt ht]
    exact ⟨[], .nil, rfl, fun _ => ⟨[], rfl, rfl⟩⟩
  | endText place t rest ht hmove =>
    obtain ⟨fault, hfault, -⟩ := move_faults place t rest
    rw [hmove] at hfault
    cases hfault with
    | endText hboundary =>
      rw [script_endText ht hmove, intact_cons ht, segments_boundary hboundary]
      refine ⟨([t] :: segments (intact rest)).map fun _ => [], ?_, ?_, fun _ => ⟨[], rfl, ?_⟩⟩
      · rw [List.forall₂_map_right_iff]
        exact List.forall₂_same.2 fun _ _ => .clean rfl
      · simp
      · rw [List.headD_cons, skipping_boundary hboundary]
        rfl
  | take place t rest before after next ht hmove ih =>
    obtain ⟨parts, hshares, hscript, hquiet⟩ := ih
    obtain ⟨fault, hfault, hsilent⟩ := move_faults place t rest
    rw [hmove] at hfault
    have hevents : (script place (t :: rest)).1 = moving t before after ++ parts.flatten := by
      rw [script_take ht hmove, hscript, moving]
      simp
    rw [hevents, intact_cons ht]
    by_cases hboundary : t.kind.isBoundary
    · obtain rfl := hfault.of_boundary hboundary
      have hclean := rejections_moving hfault
      rw [segments_boundary hboundary]
      exact ⟨_, .cons (.clean hclean) hshares, rfl, fun _ => quiet_boundary hboundary hclean⟩
    · rw [segments_inner hboundary]
      refine ⟨_, .cons (share_moving hfault (share_headD hshares) hboundary ?_)
        (share_tail hshares), ?_, ?_⟩
      · exact fun hnext => hquiet (.inl hnext)
      · rw [List.flatten_cons, List.append_assoc, headD_append_flatten]
      · intro hplace
        obtain rfl : place = .recovery := hplace.recovery hboundary
        obtain ⟨rfl, rfl, rfl⟩ := Move.passOver_take hmove
        obtain ⟨after, hafter, hhead⟩ := hquiet (.inl rfl)
        refine ⟨after, hafter, ?_⟩
        rw [List.headD_cons, List.headD_cons, skipping_inner hboundary, hhead]
        rfl
  | newline place t rest before ht hmove ih =>
    obtain ⟨parts, hshares, hscript, -⟩ := ih
    obtain ⟨fault, hfault, hsilent⟩ := move_faults place t rest
    rw [hmove] at hfault
    have hafter : [Event.consume t, .nextLine rest].filterMap rejection? = [] := rfl
    rw [intact_cons ht, segments_boundary hfault.boundary]
    obtain ⟨hshare, hfirst⟩ := share_boundary hfault hafter
    refine ⟨_, .cons hshare hshares, ?_, fun hplace => hfirst (hsilent hplace)⟩
    rw [script_newline ht hmove, hscript]
    simp
  | leave place t rest before ht hmove ih =>
    obtain ⟨parts, hshares, hscript, hquiet⟩ := ih
    obtain ⟨fault, hfault, hsilent⟩ := move_faults place t rest
    rw [hmove] at hfault
    rw [intact_cons ht, segments_boundary hfault.boundary] at hshares hquiet ⊢
    -- The boundary is read once more as an item, where it is not rejected.
    have hafter : (Event.nextLine (t :: rest) :: parts.headD []).filterMap rejection? = [] :=
      (hquiet (.inr ⟨rfl, t, rfl, hfault.boundary⟩)).rejections
    obtain ⟨hshare, hfirst⟩ := share_boundary hfault hafter
    refine ⟨_, .cons hshare (share_tail hshares), ?_, fun hplace => hfirst (hsilent hplace)⟩
    rw [script_leave ht hmove, hscript, List.flatten_cons, List.append_assoc, List.cons_append,
      headD_append_flatten]

end Script

end LabelGraph
