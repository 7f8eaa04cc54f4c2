import Treewalk.Tree.Parser

/-!
# Numbers are never given back

The parser draws numbers for nodes and never returns one, whatever becomes of the text:
a token that is read and a token that is refused both leave the next free number where
it was or further on. So the numbers that a text used lie below those of every text
after it, also where the text was refused (`le_next_parse`).
-/

namespace Treewalk

private theorem le_next_closeExpression (stop : Nat) (layers : List Layer) (e : Expr)
    (next : NodeId) :
    next ≤ (closeExpression stop layers e next).2.2 := by
  fun_induction closeExpression stop layers e next with
  | case4 start name layers e next ih => exact Nat.le_of_succ_le ih
  | case6 layers e next => exact Nat.le_refl next
  | _ => assumption

namespace Parser

/-- The next free number after a token. -/
def Step.next : Step → NodeId
  | .ok p => p.nextId
  | .error next => next

variable (p : Parser)

/-! ## Steps that draw no number -/

@[simp] theorem next_refuse : Step.next p.refuse = p.nextId :=
  rfl

@[simp] theorem next_move (layers : List Layer) (focus : Focus) :
    Step.next (p.move layers focus) = p.nextId :=
  rfl

@[simp] theorem next_closeCall (layers : List Layer) (callee : Expr) (args : List Expr)
    (stop : Nat) : Step.next (p.closeCall layers callee args stop) = p.nextId :=
  rfl

@[simp] theorem next_finishStmt (layers : List Layer) (s : Stmt) :
    Step.next (p.finishStmt layers s) = p.nextId := by
  unfold finishStmt
  split
  · split <;> rfl
  · rfl

@[simp] theorem next_finishBranch (layers : List Layer) (s : Stmt) :
    Step.next (p.finishBranch layers s) = p.nextId := by
  fun_induction finishBranch p layers s with
  | case1 start cond onTrue layers s ih => exact ih
  | case2 layers s => exact p.next_finishStmt layers s

@[simp] theorem next_finishFunction (layers : List Layer) (decl : FunctionDecl) :
    Step.next (p.finishFunction layers decl) = p.nextId := by
  unfold finishFunction
  split <;> simp

@[simp] theorem next_closeBody (stop : Nat) :
    Step.next (p.closeBody stop) = p.nextId := by
  unfold closeBody
  split <;> simp

@[simp] theorem next_endBranch (start : Nat) (cond : Expr) (onTrue : Stmt) :
    Step.next (p.endBranch start cond onTrue) = p.nextId :=
  p.next_finishBranch _ _

@[simp] theorem next_feedOperand (t : Token) (span : Span) :
    Step.next (p.feedOperand t span) = p.nextId := by
  obtain ⟨layers, focus, n⟩ := p
  cases t with
  | sign s =>
    cases s with
    | rparen =>
      rcases layers with _ | ⟨layer, layers⟩
      · rfl
      · cases layer <;> rfl
    | semi =>
      rcases layers with _ | ⟨layer, layers⟩
      · rfl
      · cases layer with
        | retOperand start =>
          exact next_finishStmt _ layers (.ret ⟨start, span.stop⟩ none)
        | _ => rfl
    | _ => rfl
  | word w => cases w <;> rfl
  | _ => rfl

@[simp] theorem next_feedEnd (e : Expr) (t : Token) (span : Span) :
    Step.next (p.feedEnd e t span) = p.nextId := by
  unfold feedEnd
  split <;> simp

@[simp] theorem next_feedDeclaration (t : Token) (span : Span) :
    Step.next (p.feedDeclaration t span) = p.nextId := by
  unfold feedDeclaration
  split <;> simp

/-! ## Steps that may draw numbers -/

private theorem le_next_feedComplete (e : Expr) (t : Token) (span : Span) :
    p.nextId ≤ Step.next (p.feedComplete e t span) := by
  unfold feedComplete
  split
  · simp
  · simp
  · split
    · split <;> simp
    · simp
  · split
    · simp
    · split
      · rw [next_feedEnd]
        exact le_next_closeExpression _ _ _ _
      · simp

theorem le_next_feedNumbered (e : Expr) (t : Token) (span : Span) :
    p.nextId ≤ Step.next (p.feedNumbered e t span) := by
  unfold feedNumbered
  split
  · exact Nat.le_of_succ_le
      (le_next_feedComplete ⟨p.layers, .complete e, p.nextId + 1⟩ e t span)
  · simp

/-- A token after an `if` without a second branch finishes it first. -/
private theorem next_feed_branchNext {start : Nat} {cond : Expr} {onTrue : Stmt}
    (t : Token) (span : Span) :
    Step.next (match p.endBranch start cond onTrue with
      | .ok p => p.feedDeclaration t span
      | .error next => .error next) = p.nextId := by
  have hend := p.next_endBranch start cond onTrue
  split
  · rename_i q hq
    rw [hq] at hend
    rw [next_feedDeclaration]
    exact hend
  · rename_i next hnext
    rw [hnext] at hend
    exact hend

/-- A token leaves the next free number where it was or further on, read or refused. -/
private theorem le_next_feed (token : Located Token) :
    p.nextId ≤ Step.next (p.feed token) := by
  generalize h : p.feed token = step
  obtain ⟨t, span⟩ := token
  simp only [feed] at h
  -- Only operands, calls and the name of a superclass draw a number.
  split at h
  case h_5 => split at h <;> simp [← h]
  case h_6 => exact h ▸ p.le_next_feedNumbered _ _ _
  case h_7 => exact h ▸ p.le_next_feedNumbered _ _ _
  case h_8 => exact h ▸ p.le_next_feedComplete _ _ _
  case h_24 => exact h ▸ Nat.le_succ p.nextId
  case h_35 => exact h ▸ Nat.le_of_eq (p.next_feed_branchNext _ _).symm
  all_goals simp [← h]

theorem le_next_parseFrom (tokens : List (Located Token)) (p : Parser) (stop : Nat) :
    p.nextId ≤ (p.parseFrom stop tokens).2 := by
  induction tokens generalizing p stop with
  | nil =>
    unfold parseFrom
    split <;> exact Nat.le_refl _
  | cons token tokens ih =>
    have hfeed := p.le_next_feed token
    unfold parseFrom
    split
    · rename_i q hq
      rw [hq] at hfeed
      exact Nat.le_trans hfeed (ih q token.span.stop)
    · rename_i next hnext
      rw [hnext] at hfeed
      exact hfeed

end Parser

/-- The next free number after a text is not below its first one, accepted or
refused. -/
theorem le_next_parse (firstId : NodeId) (tokens : List (Located Token)) :
    firstId ≤ (parse firstId tokens).2 :=
  Parser.le_next_parseFrom tokens (.start firstId) 0

end Treewalk
