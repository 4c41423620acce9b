import LabelGraph.Proofs.Token.Followed

/-!
Scanning in front of stray bytes. No class holds a stray byte, so whatever the scanner looks
for it looks for in the valid text in front of the first one, as if the text ended there.
-/

namespace LabelGraph

open Atom Lexeme

/-- There is nothing, or a stray byte stands first. -/
def Fenced (fence : List Atom) : Prop := ∀ a ∈ fence.head?, a.isStray

variable {fence atoms rest : List Atom}

theorem fenced_nil : Fenced [] := nofun

theorem fenced_cons (b : UInt8) (rest : List Atom) : Fenced (.stray b :: rest) := by
  rintro a ⟨⟩
  rfl

theorem Fenced.cases (h : Fenced fence) : fence = [] ∨ ∃ b rest, fence = .stray b :: rest := by
  cases fence with
  | nil => exact .inl rfl
  | cons a rest =>
    cases a with
    | char c => cases h _ rfl
    | stray b => exact .inr ⟨b, rest, rfl⟩

namespace Lexeme

theorem run_fence (h : Fenced fence) (p : Char → Bool) (atoms : List Atom) :
    run p (atoms ++ fence) = run p atoms := by
  have hnone : fence.takeWhile (·.satisfies p) = [] := by
    rcases h.cases with rfl | ⟨b, rest, rfl⟩ <;> rfl
  rw [run, run, List.takeWhile_append, hnone, List.append_nil]
  split
  · next hwhole => rw [hwhole]
  · rfl

theorem headIs_fence (h : Fenced fence) (p : Char → Bool) (atoms : List Atom) :
    headIs p (atoms ++ fence) = headIs p atoms := by
  cases atoms with
  | nil => rcases h.cases with rfl | ⟨b, rest, rfl⟩ <;> rfl
  | cons a atoms => rfl

theorem numberLength_fence (h : Fenced fence) (a : Atom) (rest : List Atom) :
    numberLength (a :: (rest ++ fence)) = numberLength (a :: rest) := by
  have hdigits := run_fence h Char.isDigit rest
  by_cases ha : a = .char '0'
  case neg => rw [numberLength_of_ne ha, numberLength_of_ne ha, hdigits]
  subst ha
  cases rest with
  | nil => rcases h.cases with rfl | ⟨b, rest, rfl⟩ <;> rfl
  | cons b rest =>
    cases b with
    | stray b => exact congrArg (1 + ·) hdigits
    | char x =>
      rw [List.cons_append] at hdigits ⊢
      rw [numberLength, numberLength, headIs_fence h, run_fence h, hdigits]

theorem quotedAfter_fence (h : Fenced fence) (count : Nat) (atoms : List Atom) :
    quotedAfter count (atoms ++ fence) = quotedAfter count atoms := by
  have hfence (count : Nat) : quotedAfter count fence = none := by
    rcases h.cases with rfl | ⟨b, rest, rfl⟩ <;> rfl
  fun_induction quotedAfter count atoms with
  | case1 => rfl
  | case2 => rfl
  | case3 => rfl
  | case4 count c rest hc ih =>
    change quotedAfter count (.char '\\' :: .char c :: (rest ++ fence)) = _
    rw [quotedAfter, if_neg hc]
    exact ih
  | case5 count rest hchar =>
    cases rest with
    | nil => rcases h.cases with rfl | ⟨b, rest, rfl⟩ <;> rfl
    | cons a rest =>
      cases a with
      | char c => exact absurd rfl (hchar c rest)
      | stray b => rfl
  | case6 count c rest hquote hfeed _ hescape ih =>
    exact (quotedAfter_char hquote hfeed hescape count (rest ++ fence)).trans ih
  | case7 => rfl
  | case8 count => exact hfence count

theorem longest?_fence (h : Fenced fence) (c : Char) (rest : List Atom) :
    longest? c (rest ++ fence) = longest? c rest := by
  simp only [longest?, quoted?, run_fence h, headIs_fence h, numberLength_fence h,
    quotedAfter_fence h]

end Lexeme

namespace Construct

theorem closeStringAfter_fence (h : Fenced fence) (count : Nat) (atoms : List Atom) :
    closeStringAfter count (atoms ++ fence) = closeStringAfter count atoms := by
  have hfence (count : Nat) : closeStringAfter count fence = none := by
    rcases h.cases with rfl | ⟨b, rest, rfl⟩ <;> rfl
  fun_induction closeStringAfter count atoms with
  | case1 => rfl
  | case2 => rfl
  | case3 => rfl
  | case4 count c rest hc ih => exact (closeStringAfter_escape hc count (rest ++ fence)).trans ih
  | case5 count c rest hquote hfeed hescape ih =>
    by_cases hc : c = '\\'
    case neg => exact (closeStringAfter_char hquote hfeed hc count (rest ++ fence)).trans ih
    subst hc
    cases rest with
    | nil => rcases h.cases with rfl | ⟨b, rest, rfl⟩ <;> rfl
    | cons a rest =>
      cases a with
      | char d => exact absurd rfl (hescape d rest rfl)
      | stray b => rfl
  | case6 => rfl
  | case7 count => exact hfence count

theorem close?_fence (h : Fenced fence) (c : Construct) (atoms : List Atom) :
    c.close? (atoms ++ fence) = c.close? atoms := by
  cases c with
  | code => rfl
  | string => exact closeStringAfter_fence h 0 atoms
  | comment =>
    simp only [close?, run_fence h, List.drop_append_of_le_length (run_le _ _)]
    cases atoms.drop (run isCommentChar atoms) with
    | nil => rcases h.cases with rfl | ⟨b, rest, rfl⟩ <;> rfl
    | cons a rest => cases a <;> rfl

/-- In front of stray bytes nothing closes. -/
theorem close?_fenced (h : Fenced fence) {c : Construct} (hopen : c ≠ .code) :
    c.close? fence = none := by
  rcases h.cases with rfl | ⟨b, rest, rfl⟩
  · cases c with
    | code => exact absurd rfl hopen
    | comment => rfl
    | string => rfl
  · exact close?_stray hopen b rest

end Construct

/-- The valid text ends at the stray bytes. -/
theorem Scanner.validRun_fence (h : Fenced fence) (text : List Char) :
    validRun (text.map .char ++ fence) = text.length := by
  have hchars : validRun (text.map .char ++ []) = (text.map Atom.char).length :=
    validRun_of_valid (by simp) []
  rw [List.append_nil, List.length_map] at hchars
  rw [validRun, run_fence h]
  exact hchars

/-- In front of stray bytes an open construct stays open, and nothing is skipped. -/
theorem Scanner.skip_fenced {s : Scanner} (h : Fenced s.rest) (hopen : s.construct ≠ .code) :
    s.skip = s := by
  have hnone : validRun s.rest = 0 := by
    rcases h.cases with hrest | ⟨b, rest, hrest⟩ <;> rw [hrest]
    · rfl
    · exact validRun_stray b rest
  rw [skip_open hopen (Construct.close?_fenced h hopen), hnone, advance_zero]

end LabelGraph
