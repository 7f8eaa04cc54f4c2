import Treewalk.Proofs.Machine.Supply

/-!
# The places of errors

An error is raised at the place of an expression, or without a place inside a call, and
then the end of this call supplies the place of the call. Both come from the code: what
waits keeps the places that it may report (`Pending.places`), and right behind an
argument waits the end of its call, with a place (`Anchored`).

A state from which every error gets a place is one that `Locates`. Transitions lead from
such states to such states, as long as the value of each call is there
(`Machine.Locates.step`).
-/

namespace Treewalk

open List

/-! ## Places -/

/-- The place at which a callee is looked up, if it is looked up by name. -/
def Callee.places : Callee → List Span
  | .named span _ => [span]
  | _ => []

/-- The places that an entry may report. -/
def Pending.places : Pending → List Span
  | .assign span .. => [span]
  | .binaryLeft span .. => [span]
  | .binaryRight span .. => [span]
  | .unary span _ => [span]
  | .get span _ => [span]
  | .setObject span .. => [span]
  | .receiver span access .. => [span, access]
  | .argument call .. => call.span :: call.callee.places
  | .leave span => span.toList
  | .superclass span .. => [span]
  | _ => []

/-- Neither an argument nor the call of the entry point. -/
def Pending.isPlain : Pending → Bool
  | .argument .. => false
  | .enterMain => false
  | _ => true

variable (place : Span → Prop)

/-- The places that are kept are proper ones, and the end of a call waits behind its
arguments. -/
inductive Anchored : List Pending → Prop where
  | nil : Anchored []
  | plain {entry : Pending} {pending : List Pending} (hplain : entry.isPlain = true)
      (hplaces : ∀ span ∈ entry.places, place span) (hrest : Anchored pending) :
        Anchored (entry :: pending)
  | argument {call : Call} {done : List (Expr × Value)} {current : Expr}
      {rest : List Expr} {span : Span} {pending : List Pending}
      (hcall : place call.span) (hcallee : ∀ span ∈ call.callee.places, place span)
      (hspan : place span) (hrest : Anchored pending) :
      Anchored (.argument call done current rest :: .leave (some span) :: pending)

section Anchored

variable {place} {entry : Pending} {pending : List Pending} {span : Span}

private theorem Anchored.tail (h : Anchored place (entry :: pending)) :
    Anchored place pending := by
  cases h with
  | plain hplain hplaces hrest => exact hrest
  | argument hcall hcallee hspan hrest =>
    exact .plain rfl (fun _ hmem => mem_singleton.1 hmem ▸ hspan) hrest

private theorem Anchored.head (h : Anchored place (entry :: pending)) :
    ∀ span ∈ entry.places, place span := by
  cases h with
  | plain hplain hplaces hrest => exact hplaces
  | argument hcall hcallee hspan hrest => exact forall_mem_cons.2 ⟨hcall, hcallee⟩

/-- An entry that reports nothing. -/
theorem Anchored.silent (hpending : Anchored place pending)
    (hplain : entry.isPlain = true) (hplaces : entry.places = []) :
    Anchored place (entry :: pending) :=
  .plain hplain (by simp [hplaces]) hpending

private theorem Anchored.single (hpending : Anchored place pending)
    (hplain : entry.isPlain = true) (hplaces : entry.places = [span])
    (hspan : place span) : Anchored place (entry :: pending) :=
  .plain hplain (by simpa [hplaces] using hspan) hpending

end Anchored

/-- The machine is neither asking the host nor failing. -/
def Control.isWork : Control → Bool
  | .native .. => false
  | .fail _ => false
  | _ => true

namespace Machine

variable {call : Call}

/-- Every error gets a place from here on. -/
inductive Locates : Machine → Prop where
  | work {world : World} {control : Control} {pending : List Pending}
      (hwork : control.isWork = true) (hpending : Anchored place pending) :
      Locates ⟨world, control, pending⟩
  | native {world : World} {name : String} {args : List Value} {span : Span}
      {pending : List Pending} (hspan : place span)
      (hpending : Anchored place pending) :
      Locates ⟨world, .native name args, .leave (some span) :: pending⟩
  /-- The error has no place yet. -/
  | raised {world : World} {cause : Cause} {span : Span} {pending : List Pending}
      (hspan : place span) (hpending : Anchored place pending) :
      Locates ⟨world, .fail ⟨cause, none⟩, .leave (some span) :: pending⟩
  | located {world : World} {cause : Cause} {span : Span} {pending : List Pending}
      (hspan : place span) :
      Locates ⟨world, .fail ⟨cause, some span⟩, pending⟩

variable {place} {ctx : Context} {world : World} {pending : List Pending} {span : Span}

private theorem locates_answer (hspan : place span) (hpending : Anchored place pending)
    (result : Except Cause Value) :
    Locates place (answer world pending (some span) result) := by
  cases result with
  | ok value => exact .work rfl hpending
  | error cause => exact .located hspan

/-! ## Calls -/

theorem locates_callFunction (hpending : Anchored place pending) (function : Function)
    (args : List Value) :
    Locates place (callFunction world pending function args) :=
  .work rfl (.silent (.silent hpending rfl rfl) rfl rfl)

theorem locates_construct (hpending : Anchored place pending) (cls : Class)
    (args : List Value) :
    Locates place (construct world pending cls args) := by
  simp only [construct]
  split
  · exact .work rfl hpending
  · exact locates_callFunction (.silent hpending rfl rfl) _ args

/-- What fails before the callee runs gets the place of the call. -/
private theorem locates_invoke (hspan : place span) (hpending : Anchored place pending)
    (name : String) (callee : Value) (args : List Value) :
    Locates place (invoke world (.leave (some span) :: pending) name callee args) := by
  have hleave : Anchored place (.leave (some span) :: pending) :=
    .single hpending rfl rfl hspan
  unfold invoke
  split
  · exact .raised hspan hpending
  · split
    · split
      · exact locates_callFunction hleave _ args
      · exact locates_construct hleave _ args
      · exact .native hspan hpending
    · exact .raised hspan hpending

private theorem locates_complete (hspan : place span)
    (hpending : Anchored place pending)
    (hcallee : ∀ span ∈ call.callee.places, place span) (args : List (Expr × Value)) :
    Locates place (complete ctx world (.leave (some span) :: pending) call args) := by
  simp only [complete]
  split
  · exact locates_invoke hspan hpending _ _ _
  · exact .native hspan hpending
  · rename_i access id hnamed
    split
    · exact locates_invoke hspan hpending _ _ _
    · exact .located (hcallee access (by simp [hnamed, Callee.places]))

private theorem locates_nextArgument (hspan : place span)
    (hpending : Anchored place pending) (hcall : place call.span)
    (hcallee : ∀ span ∈ call.callee.places, place span) (done : List (Expr × Value))
    (rest : List Expr) :
    Locates place (nextArgument ctx world (.leave (some span) :: pending) call done
      rest) := by
  cases rest with
  | nil => exact locates_complete hspan hpending hcallee _
  | cons expr rest => exact .work rfl (.argument hcall hcallee hspan hpending)

private theorem locates_startCall (hpending : Anchored place pending)
    (hcall : place call.span) (hcallee : ∀ span ∈ call.callee.places, place span)
    (args : List Expr) :
    Locates place (startCall ctx world pending call args) := by
  unfold startCall enter
  split
  · exact .located hcall
  · exact locates_nextArgument hcall hpending hcall hcallee [] args

/-! ## Expressions and statements -/

/-- The places of the expressions of code are proper ones. -/
def Charted (place : Span → Prop) (exprs : List Expr) : Prop :=
  ∀ expr ∈ exprs, place expr.span

section

variable (hpending : Anchored place pending)

include hpending

private theorem locates_evaluateCall (hspan : place span) (env : ScopeId) (id : NodeId)
    {callee : Expr} (hcallee : place callee.span) (args : List Expr) :
    Locates place (evaluateCall ctx world pending env span id callee args) := by
  unfold evaluateCall
  split
  · exact .work rfl
      (.plain rfl (by simpa [Pending.places] using ⟨hspan, hcallee⟩) hpending)
  · split
    · exact .located hcallee
    · exact locates_startCall hpending hspan (by simp [Callee.places]) args
  · refine locates_startCall hpending hspan ?_ args
    dsimp only
    split
    · exact nofun
    · exact fun _ hmem => mem_singleton.1 hmem ▸ hcallee
  · exact .located hcallee

private theorem locates_evaluate (env : ScopeId) {expr : Expr}
    (hexpr : Charted place expr.parts) :
    Locates place (evaluate ctx world pending env expr) := by
  have hself : place expr.span := hexpr expr expr.self_mem_parts
  cases expr with
  | assign span id name value => exact .work rfl (.single hpending rfl rfl hself)
  | binary span left op right => exact .work rfl (.single hpending rfl rfl hself)
  | call span id callee args =>
    refine locates_evaluateCall hpending hself env id (hexpr callee ?_) args
    simp [Expr.parts, callee.self_mem_parts]
  | get span object name => exact .work rfl (.single hpending rfl rfl hself)
  | grouping span inner => exact .work rfl hpending
  | literal span value => exact .work rfl hpending
  | logical span left op right => exact .work rfl (.silent hpending rfl rfl)
  | set span object name value => exact .work rfl (.single hpending rfl rfl hself)
  | super span method =>
    simp only [evaluate]
    split
    · exact .located hself
    · exact .work rfl hpending
  | this span =>
    simp only [evaluate]
    split
    · exact .work rfl hpending
    · exact .located hself
  | unary span op operand => exact .work rfl (.single hpending rfl rfl hself)
  | var span id name => exact locates_answer hself hpending _

private theorem locates_declareClass (env : ScopeId) (decl : ClassDecl)
    (superclass : Option Class) :
    Locates place (declareClass world pending env decl superclass) := by
  simp only [declareClass]
  exact .work rfl hpending

private theorem locates_execute (env : ScopeId) {stmt : Stmt}
    (hstmt : Charted place stmt.parts) :
    Locates place (execute ctx world pending env stmt) := by
  cases stmt with
  | block span body => exact .work rfl (.silent hpending rfl rfl)
  | funcDecl span decl => exact .work rfl hpending
  | classDecl span decl =>
    obtain ⟨name, superclass, methods, place'⟩ := decl
    cases superclass with
    | none => exact locates_declareClass hpending env _ none
    | some superclass =>
      refine .work rfl (.single hpending rfl rfl (hstmt superclass ?_))
      simp [Stmt.parts, ClassDecl.parts, Expr.optionParts, superclass.self_mem_parts]
  | branch span cond onTrue onFalse => exact .work rfl (.silent hpending rfl rfl)
  | print span newline operand =>
    cases operand with
    | none => exact .work rfl hpending
    | some operand => exact .work rfl (.silent hpending rfl rfl)
  | ret span operand =>
    cases operand with
    | none => exact .work rfl hpending
    | some operand => exact .work rfl (.silent hpending rfl rfl)
  | brk span => exact .work rfl hpending
  | var span name init =>
    cases init with
    | none => exact .work rfl hpending
    | some init => exact .work rfl (.silent hpending rfl rfl)
  | loop span cond body => exact .work rfl (.silent hpending rfl rfl)
  | expression span expr => exact .work rfl (.silent hpending rfl rfl)

end

/-! ## Outcomes -/

private theorem locates_receive {next : Pending} (h : Anchored place (next :: pending))
    (value : Value) :
    Locates place (receive ctx world pending value next) := by
  have hpending := h.tail
  have hplaces := h.head
  cases next with
  | argument call done current rest =>
    cases h with
    | plain hplain => cases hplain
    | argument hcall hcallee hspan hrest =>
      exact locates_nextArgument hspan hrest hcall hcallee _ rest
  | enterMain =>
    cases h with
    | plain hplain => cases hplain
  | assign span id name env =>
    simp only [receive]
    split
    · exact .work rfl hpending
    · exact .located (hplaces span mem_cons_self)
  | binaryLeft span op right env =>
    exact .work rfl (.single hpending rfl rfl (hplaces span mem_cons_self))
  | binaryRight span left op =>
    exact locates_answer (hplaces span mem_cons_self) hpending _
  | logical op right env =>
    cases op <;> simp only [receive] <;> split <;> exact .work rfl hpending
  | unary span op => exact locates_answer (hplaces span mem_cons_self) hpending _
  | get span name =>
    simp only [receive]
    split
    · exact .located (hplaces span mem_cons_self)
    · exact .work rfl hpending
  | setObject span name operand env =>
    simp only [receive]
    split
    · exact .work rfl (.silent hpending rfl rfl)
    · exact .located (hplaces span mem_cons_self)
  | setField inst name => exact .work rfl hpending
  | receiver span access name args env =>
    simp only [receive]
    split
    · exact .located (hplaces access (by simp [Pending.places]))
    · exact locates_startCall hpending (hplaces span mem_cons_self)
        (by simp [Callee.places]) args
  | leave span => exact .work rfl hpending
  | construct inst => exact .work rfl hpending
  | declare name env => exact .work rfl hpending
  | branch onTrue onFalse env =>
    simp only [receive]
    split
    · exact .work rfl hpending
    · split <;> exact .work rfl hpending
  | loopTest cond body env =>
    simp only [receive]
    split
    · exact .work rfl (.silent hpending rfl rfl)
    · exact .work rfl hpending
  | print newline =>
    simp only [receive, printValue]
    split <;> exact .work rfl hpending
  | ret => exact .work rfl hpending
  | discard => exact .work rfl hpending
  | superclass span decl env =>
    simp only [receive]
    split
    · exact locates_declareClass hpending env decl _
    · exact .located (hplaces span mem_cons_self)
  | result function => exact .work rfl h
  | seq rest env => exact .work rfl h
  | loopBody cond body env => exact .work rfl h

private theorem locates_proceed {next : Pending} (h : Anchored place (next :: pending))
    {flow : Flow}
    (hresult : ∀ function, next = .result function → ∃ value,
      resultOf world function flow = .ok value) :
    Locates place (proceed ctx world pending flow next) := by
  have hpending := h.tail
  cases next with
  | seq rest env =>
    simp only [proceed]
    split
    · exact .work rfl (.silent hpending rfl rfl)
    · exact .work rfl hpending
  | loopBody cond body env =>
    cases flow with
    | normal => exact .work rfl (.silent hpending rfl rfl)
    | brk => exact .work rfl hpending
    | ret value => exact .work rfl hpending
  | result function =>
    obtain ⟨value, hvalue⟩ := hresult function rfl
    simp only [proceed, hvalue]
    exact .work rfl hpending
  | enterMain =>
    cases h with
    | plain hplain => cases hplain
  | _ => exact .work rfl h

/-- An error that has a place keeps it. -/
theorem locates_unwind (hspan : place span) (cause : Cause) (next : Pending) :
    Locates place (unwind world pending ⟨cause, some span⟩ next) := by
  cases next with
  | leave other => cases other <;> exact .located hspan
  | _ => exact .located hspan

private theorem locates_callNative (hspan : place span)
    (hpending : Anchored place pending) (name : String) (args : List Value) :
    Locates place (callNative ctx world (.leave (some span) :: pending) name args) := by
  have hleave : Anchored place (.leave (some span) :: pending) :=
    .single hpending rfl rfl hspan
  obtain ⟨heap, frames, output⟩ := world
  simp only [callNative]
  split
  · exact .work rfl hleave
  · split
    · exact .work rfl hleave
    · exact .raised hspan hpending

/-! ## Transitions -/

/-- The value of a call whose body ends is there. -/
def Yields (m : Machine) : Prop :=
  ∀ function flow pending, m.control = .flow flow →
    m.pending = .result function :: pending → ∃ value,
    resultOf m.world function flow = .ok value

/-- A transition keeps the places of errors. -/
theorem Locates.step {m : Machine} (h : Locates place m)
    (hcode : ∀ expr, .code expr ∈ m.control.contents → place expr.span)
    (hyields : m.Yields) :
    Locates place (m.step ctx) := by
  cases h with
  | @work world control pending hwork hpending =>
    cases control with
    | eval expr env =>
      exact locates_evaluate hpending env fun part hpart =>
        hcode part (mem_map_of_mem hpart)
    | exec stmt env =>
      exact locates_execute hpending env fun part hpart =>
        hcode part (mem_append_left _ (mem_map_of_mem hpart))
    | native name args => cases hwork
    | fail error => cases hwork
    | value value =>
      cases pending with
      | nil => exact .work rfl hpending
      | cons next pending => exact locates_receive hpending value
    | flow flow =>
      cases pending with
      | nil => exact .work rfl hpending
      | cons next pending =>
        refine locates_proceed hpending fun function hnext =>
          hyields function flow pending rfl ?_
        rw [hnext]
  | native hspan hpending => exact locates_callNative hspan hpending _ _
  | raised hspan hpending => exact .located hspan
  | @located world cause span pending hspan =>
    cases pending with
    | nil => exact .located hspan
    | cons next pending => exact locates_unwind hspan cause next

/-- An error at the end of a run has a proper place. -/
theorem Locates.place_of_fail {error : RuntimeError}
    (h : Locates place ⟨world, .fail error, []⟩) :
    ∃ span, error.span = some span ∧ place span := by
  cases h with
  | work hwork => cases hwork
  | located hspan => exact ⟨_, rfl, hspan⟩

end Machine

end Treewalk
