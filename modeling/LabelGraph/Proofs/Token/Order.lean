import LabelGraph.Proofs.Token.Stream

/-!
The order of the tokens. A scanner only ever moves ahead, and over something with every
token, so the tokens of a text start at places that ascend strictly.
-/

namespace LabelGraph

namespace Scanner

variable {s t u : Scanner}

def Ahead (s t : Scanner) : Prop :=
  ∃ n, t.rest = (s.advance n).rest ∧ t.cursor = (s.advance n).cursor

theorem Ahead.refl (s : Scanner) : s.Ahead s := ⟨0, rfl, rfl⟩

theorem Ahead.of_advance (s : Scanner) (n : Nat) : s.Ahead (s.advance n) := ⟨n, rfl, rfl⟩

theorem Ahead.with_construct (h : s.Ahead t) (construct : Construct) :
    s.Ahead { t with construct } := h

theorem Ahead.trans (h : s.Ahead t) (h' : t.Ahead u) : s.Ahead u := by
  obtain ⟨m, hrest, hcursor⟩ := h
  obtain ⟨n, hrest', hcursor'⟩ := h'
  have hadd := advance_advance s m n
  refine ⟨m + n, ?_, ?_⟩
  · rw [hrest', ← hadd, advance, advance, hrest]
  · rw [hcursor', ← hadd, advance, advance, hrest, hcursor]

theorem closeConstruct_ahead (s : Scanner) : s.Ahead s.closeConstruct := by
  unfold closeConstruct
  split
  · exact .with_construct (.of_advance s _) _
  · exact .of_advance s _

theorem skipTrivia_ahead (s : Scanner) : s.Ahead s.skipTrivia := by
  have hblanks := Ahead.of_advance s (Lexeme.run Lexeme.isBlank s.rest)
  unfold skipTrivia
  generalize s.advance (Lexeme.run Lexeme.isBlank s.rest) = t at hblanks
  simp only
  split
  · have hcomment := hblanks.trans (.of_advance t (Lexeme.run Lexeme.isCommentChar t.rest))
    split
    · exact hcomment.with_construct _
    · exact hcomment
  · exact hblanks

theorem skip_ahead (s : Scanner) : s.Ahead s.skip := by
  unfold skip
  simp only
  split
  · exact (closeConstruct_ahead s).trans (skipTrivia_ahead _)
  · exact closeConstruct_ahead s

theorem cutOpenString_ahead (s : Scanner) (body : List Atom) :
    s.Ahead (s.cutOpenString body).2 ∧ (s.cutOpenString body).1.span.start = s.cursor := by
  unfold cutOpenString
  split
  · exact ⟨.of_advance s _, rfl⟩
  · simp only
    split
    · exact ⟨.with_construct (.of_advance s _) _, rfl⟩
    · exact ⟨.of_advance s _, rfl⟩

/-- A token starts where it is cut off. -/
theorem cutToken_ahead (s : Scanner) :
    s.Ahead s.cutToken.2 ∧ s.cutToken.1.span.start = s.cursor := by
  unfold cutToken
  split
  · exact ⟨.of_advance s _, rfl⟩
  · exact ⟨.of_advance s _, rfl⟩
  · split
    · exact ⟨.of_advance s _, rfl⟩
    · split
      · exact cutOpenString_ahead s _
      · exact ⟨.of_advance s _, rfl⟩

theorem Ahead.offset_le (h : s.Ahead t) : s.cursor.offset ≤ t.cursor.offset := by
  obtain ⟨n, -, hcursor⟩ := h
  rw [hcursor, advance, Position.offset_advance]
  exact Nat.le_add_right _ _

theorem Ahead.offset_lt (h : s.Ahead t) (hlength : t.rest.length < s.rest.length) :
    s.cursor.offset < t.cursor.offset := by
  obtain ⟨n, hrest, hcursor⟩ := h
  rw [hcursor, advance, Position.offset_advance]
  apply Nat.lt_add_of_pos_right
  rw [hrest, length_advance] at hlength
  cases n with
  | zero => omega
  | succ n =>
    cases hs : s.rest with
    | nil => simp [hs] at hlength
    | cons a rest =>
      rw [List.take_succ_cons, List.map_cons, List.sum_cons]
      exact Nat.add_pos_left (Atom.size_pos a) _

theorem start_next (s : Scanner) : s.next.1.span.start = s.skip.cursor :=
  (cutToken_ahead s.skip).2

theorem offset_le_next (s : Scanner) : s.cursor.offset ≤ s.next.1.span.start.offset := by
  rw [start_next]
  exact (skip_ahead s).offset_le

theorem next_lt_offset (h : s.next.1.kind ≠ .eof) :
    s.next.1.span.start.offset < s.next.2.cursor.offset := by
  rw [start_next]
  exact (cutToken_ahead s.skip).1.offset_lt (length_cutToken s.skip h)

end Scanner

namespace Token

def Before (t u : Token) : Prop := t.span.start.offset < u.span.start.offset

theorem Before.start_ne {t u : Token} (h : t.Before u) : t.span.start ≠ u.span.start := by
  intro heq
  rw [Before, heq] at h
  exact absurd h (Nat.lt_irrefl _)

end Token

namespace Scanner

theorem tokens_ordered (s : Scanner) :
    s.tokens.Pairwise Token.Before ∧ ∀ t ∈ s.tokens, s.cursor.offset ≤ t.span.start.offset := by
  induction hn : s.rest.length using Nat.strongRecOn generalizing s with
  | ind n ih =>
    subst hn
    have hfirst := offset_le_next s
    by_cases hend : s.next.1.kind = .eof
    · rw [tokens_of_eof hend]
      refine ⟨List.pairwise_singleton _ _, ?_⟩
      intro t ht
      rw [List.mem_singleton.1 ht]
      exact hfirst
    · obtain ⟨hpairwise, hstart⟩ := ih _ (length_next s hend) s.next.2 rfl
      have hlt := next_lt_offset hend
      rw [tokens_of_more hend]
      refine ⟨List.pairwise_cons.2 ⟨?_, hpairwise⟩, ?_⟩
      · intro t ht
        apply Nat.lt_of_lt_of_le hlt
        exact hstart t ht
      · intro t ht
        rcases List.mem_cons.1 ht with rfl | ht
        · exact hfirst
        · have hmore := hstart t ht
          omega

end Scanner

/-- The tokens of a text start at places that ascend strictly. -/
theorem tokenize_ordered (source : List UInt8) : (tokenize source).Pairwise Token.Before :=
  (Scanner.tokens_ordered _).1

/-- Tokens start in the order of their numbers. -/
theorem tokenize_start_le_iff {source : List UInt8} {i j : Nat} {t u : Token}
    (ht : (tokenize source)[i]? = some t) (hu : (tokenize source)[j]? = some u) :
    t.span.start.offset ≤ u.span.start.offset ↔ i ≤ j := by
  have hordered {i j : Nat} {t u : Token} (ht : (tokenize source)[i]? = some t)
      (hu : (tokenize source)[j]? = some u) (hij : i < j) : t.Before u := by
    obtain ⟨hi, rfl⟩ := List.getElem?_eq_some_iff.1 ht
    obtain ⟨hj, rfl⟩ := List.getElem?_eq_some_iff.1 hu
    exact List.pairwise_iff_getElem.1 (tokenize_ordered source) i j hi hj hij
  constructor
  · intro hle
    refine Nat.le_of_not_lt fun hlt => ?_
    exact absurd (hordered hu ht hlt) (Nat.not_lt.2 hle)
  · intro hle
    rcases Nat.lt_or_eq_of_le hle with hlt | rfl
    · exact Nat.le_of_lt (hordered ht hu hlt)
    · cases ht.symm.trans hu
      exact Nat.le_refl _

theorem tokenize_start_inj {source : List UInt8} {t u : Token} (ht : t ∈ tokenize source)
    (hu : u ∈ tokenize source) (h : t.span.start.offset = u.span.start.offset) : t = u := by
  obtain ⟨i, hi⟩ := List.mem_iff_getElem?.1 ht
  obtain ⟨j, hj⟩ := List.mem_iff_getElem?.1 hu
  have hij : i = j := Nat.le_antisymm ((tokenize_start_le_iff hi hj).1 (Nat.le_of_eq h))
    ((tokenize_start_le_iff hj hi).1 (Nat.le_of_eq h.symm))
  rw [hij, hj] at hi
  exact (Option.some.inj hi).symm

end LabelGraph
