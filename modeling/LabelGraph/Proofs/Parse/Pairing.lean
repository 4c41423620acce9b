import LabelGraph.Proofs.Parse.Lockstep

/-!
Scripts of tokens that belong together. What a line does at a place depends on the kind and the
text of the next token alone, so tokens that agree in these have scripts abreast.
-/

namespace LabelGraph

namespace Comparison

section Relations

variable (C : Comparison)

inductive Places : Place → Place → Prop
  | same {place : Place} (h : place.held = []) : Places place place
  | afterName {a b : Token} (h : C.token a b) : Places (.afterName a) (.afterName b)

inductive Moves : Move → Move → Prop
  | take {before before' after after' : List Action} {next next' : Place}
    (hbefore : List.Forall₂ C.Actions before before') (hafter : List.Forall₂ C.Actions after after')
    (hnext : C.Places next next') : Moves (.take before after next) (.take before' after' next')
  | endLine {before before' : List Action} {taken : Bool}
    (hbefore : List.Forall₂ C.Actions before before') :
    Moves (.endLine before taken) (.endLine before' taken)
  | endText : Moves .endText .endText

def Scripts (s t : List Event × Stop) : Prop := C.Abreast s.1 t.1 ∧ C.Stops s.2 t.2

/-- From every place on, the tokens have the same scripts. -/
def Equally (tokens tokens' : List Token) : Prop :=
  ∀ place place', C.Places place place' → C.Scripts (script place tokens) (script place' tokens')

end Relations

section Moves

variable {C : Comparison} {t u : Token}

theorem Moves.afterAction {x y : Move} {a b : Action} (h : C.Moves x y) (hab : C.Actions a b) :
    C.Moves (x.afterAction a) (y.afterAction b) := by
  cases h with
  | take hbefore hafter hnext => exact .take (.cons hab hbefore) hafter hnext
  | endLine hbefore => exact .endLine (.cons hab hbefore)
  | endText => exact .endText

variable (h : C.token t u) (hkind : u.kind = t.kind)

include hkind in
theorem passOver_moves : C.Moves (.passOver t) (.passOver u) := by
  unfold Move.passOver
  rw [hkind]
  split
  · exact .endLine .nil
  · exact .endLine .nil
  · exact .endLine .nil
  · exact .endLine .nil
  · exact .take .nil .nil (.same rfl)

include h hkind

theorem reject_moves (wanted : Wanted) : C.Moves (.reject t wanted) (.reject u wanted) :=
  (passOver_moves hkind).afterAction (.reject h)

theorem finish_moves : C.Moves (.finish t) (.finish u) := by
  unfold Move.finish
  rw [hkind]
  split
  · exact passOver_moves hkind
  · exact reject_moves h hkind .lineEnd

theorem operand_moves : C.Moves (.operand t) (.operand u) := by
  unfold Move.operand
  rw [hkind]
  split
  · exact .take .nil (.cons (.refer h) .nil) (.same rfl)
  · exact .take .nil .nil (.same rfl)
  · exact .take .nil .nil (.same rfl)
  · exact .take .nil .nil (.same rfl)
  · exact .take .nil .nil (.same rfl)
  · exact .take .nil .nil (.same rfl)
  · exact reject_moves h hkind .operand

theorem operands_moves : C.Moves (.operands t) (.operands u) := by
  unfold Move.operands
  rw [hkind]
  split
  · exact passOver_moves hkind
  · exact operand_moves h hkind

theorem afterName_moves {a b : Token} (hword : C.token a b) :
    C.Moves ((Place.afterName a).move t) ((Place.afterName b).move u) := by
  simp only [Place.move, hkind]
  split
  · exact .take .nil (.cons (.declareLabel hword h) .nil) (.same rfl)
  · exact (operands_moves h hkind).afterAction (.intern hword)

/-- Tokens of one kind and text make the same move at the same place. -/
theorem move_moves {place place' : Place} (hplace : C.Places place place')
    (htext : u.text = t.text) :
    C.Moves (place.move t) (place'.move u) := by
  cases hplace with
  | afterName hword => exact afterName_moves h hkind hword
  | same hheld =>
    cases place with
    | afterName word => cases hheld
    | item =>
      simp only [Place.move, hkind, htext]
      split
      · exact .endText
      · exact .endLine .nil
      · exact .take .nil (.cons (.openBlock h) .nil) (.same rfl)
      · exact .take .nil (.cons (.closeBlock h) .nil) (.same rfl)
      · exact .take .nil .nil (.afterName h)
      · exact .take .nil (.cons (.intern h) .nil) (.same (held_afterDirective _))
      · exact reject_moves h hkind .item
    | operands => exact operands_moves h hkind
    | operand => exact operand_moves h hkind
    | number =>
      simp only [Place.move, hkind]
      split
      · exact .take .nil .nil (.same rfl)
      · exact reject_moves h hkind .number
    | base =>
      simp only [Place.move, hkind]
      split
      · exact .take .nil (.cons (.refer h) .nil) (.same rfl)
      · exact .take .nil .nil (.same rfl)
      · exact .take .nil .nil (.same rfl)
      · exact reject_moves h hkind .base
    | bracketTail =>
      simp only [Place.move, hkind]
      split
      · exact .take .nil .nil (.same rfl)
      · exact .take .nil .nil (.same rfl)
      · exact .take .nil .nil (.same rfl)
      · exact reject_moves h hkind .closingBracket
    | offset =>
      simp only [Place.move, hkind]
      split
      · exact .take .nil .nil (.same rfl)
      · exact .take .nil .nil (.same rfl)
      · exact reject_moves h hkind .offset
    | operandEnd =>
      simp only [Place.move, hkind]
      split
      · exact .take .nil .nil (.same rfl)
      · exact finish_moves h hkind
    | name declares =>
      have haction : C.Actions (if declares then .declareExternal t else .intern t)
          (if declares then .declareExternal u else .intern u) := by
        cases declares
        · exact .intern h
        · exact .declareExternal h
      simp only [Place.move, hkind]
      split
      · exact .take .nil (.cons haction .nil) (.same rfl)
      · exact .take .nil (.cons haction .nil) (.same rfl)
      · exact reject_moves h hkind .name
    | nameEnd declares =>
      simp only [Place.move, hkind]
      split
      · exact .take .nil .nil (.same rfl)
      · exact finish_moves h hkind
    | recovery => exact passOver_moves hkind

end Moves

namespace Abreast

variable {C : Comparison} {es fs zs : List Event}

theorem lefts (h : C.Abreast es fs) (hidle : ∀ e ∈ zs, C.Idle e) : C.Abreast (zs ++ es) fs := by
  induction zs with
  | nil => exact h
  | cons e zs ih =>
    obtain ⟨he, hmore⟩ := List.forall_mem_cons.1 hidle
    exact .left he (ih hmore)

theorem rights (h : C.Abreast es fs) (hidle : ∀ e ∈ zs, C.Idle e) : C.Abreast es (zs ++ fs) := by
  induction zs with
  | nil => exact h
  | cons e zs ih =>
    obtain ⟨he, hmore⟩ := List.forall_mem_cons.1 hidle
    exact .right he (ih hmore)

theorem acts {as bs : List Action} (h : C.Abreast es fs) (hab : List.Forall₂ C.Actions as bs) :
    C.Abreast (as.map .perform ++ es) (bs.map .perform ++ fs) := by
  induction hab with
  | nil => exact h
  | cons hfirst _ ih => exact .act hfirst ih

end Abreast

section Script

variable {C : Comparison} {t u : Token} {tokens tokens' : List Token}

/-- Two tokens of one kind that belong together, and what is behind them. -/
theorem Equally.cons (hC : C.Lawful) (h : C.token t u) (hkind : u.kind = t.kind)
    (ih : C.Equally tokens tokens') : C.Equally (t :: tokens) (u :: tokens') := by
  by_cases ht : t.kind = .corrupt
  · intro place place' _
    rw [script_corrupt ht, script_corrupt (hkind.trans ht)]
    exact ⟨.nil, .corrupt (hC.place _ _ h)⟩
  have hu : u.kind ≠ .corrupt := hkind ▸ ht
  have hline (place place' : Place) (hplace : C.Places place place')
      (hleave : ∀ before before', place.move t = .endLine before false →
        place'.move u = .endLine before' false → List.Forall₂ C.Actions before before' →
        C.Scripts (script place (t :: tokens)) (script place' (u :: tokens'))) :
      C.Scripts (script place (t :: tokens)) (script place' (u :: tokens')) := by
    have hmoves : C.Moves (place.move t) (place'.move u) :=
      move_moves h hkind hplace (hC.text _ _ h)
    generalize hmove : place.move t = x at hmoves
    generalize hmove' : place'.move u = y at hmoves
    cases hmoves with
    | take hbefore hafter hnext =>
      obtain ⟨hmore, hstop⟩ := ih _ _ hnext
      rw [script_take ht hmove, script_take hu hmove']
      exact ⟨.acts (.left trivial (.right trivial (.acts hmore hafter))) hbefore, hstop⟩
    | @endLine before before' taken hbefore =>
      cases taken with
      | false => exact hleave before before' hmove hmove' hbefore
      | true =>
        obtain ⟨hmore, hstop⟩ := ih .item .item (.same rfl)
        rw [script_newline ht hmove, script_newline hu hmove', List.append_assoc,
          List.append_assoc]
        refine ⟨.acts (.left trivial (.left trivial ?_)) hbefore, hstop⟩
        exact .right trivial (.right trivial hmore)
    | endText =>
      rw [script_endText ht hmove, script_endText hu hmove']
      exact ⟨.nil, .text⟩
  -- A line that leaves the token starts anew there, and takes it then.
  have hitem := hline .item .item (.same rfl) fun before _ hmove =>
    absurd hmove (Place.item_takes t before)
  intro place place' hplace
  refine hline place place' hplace fun before before' hmove hmove' hbefore => ?_
  rw [script_leave ht hmove, script_leave hu hmove']
  exact ⟨.acts (.left trivial (.right trivial hitem.1)) hbefore, hitem.2⟩

theorem Equally.nil : C.Equally [] [] := by
  intro place place' _
  rw [script_nil, script_nil]
  exact ⟨.nil, .text⟩

theorem equally_of_forall (hC : C.Lawful)
    (h : List.Forall₂ (fun t u => C.token t u ∧ u.kind = t.kind) tokens tokens') :
    C.Equally tokens tokens' := by
  induction h with
  | nil => exact .nil
  | cons h _ ih => exact .cons hC h.1 h.2 ih

end Script

end Comparison

end LabelGraph
