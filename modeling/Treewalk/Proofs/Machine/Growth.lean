import Treewalk.Proofs.Heap.Edit

/-!
# What one transition does

A transition does a few things, one after the other: it edits the heap, writes to the
top frame, prints, lets an entry wait, or enters a call. `Machine.Does` lists these, and
each function of the machine does no more (`Machine.Leads`). Three results about all
transitions at once follow.

* `Machine.step_moves`: a machine has two stacks, the pending entries and the call
  frames, and they move together. A call puts a frame on one and a `leave` entry on the
  other, and nothing else changes the depth of either beyond the first pending entry. So
  the pending entries are the old ones with some new ones on top, there is one new frame
  for every new `leave`, and of the frames that were there only the top one may have
  other values (`Machine.Grown`).
* `Machine.step_edits`: names are bound by declarations (`Machine.declares?`) and
  assignments (`Machine.assigns?`) alone, and everything else a transition does to the
  heap makes new things or sets fields.
* `Machine.isBreak_step`: where `break` leaves the function, no transition makes one.

Whole runs are in `Treewalk.Proofs.Machine.Deliver` and
`Treewalk.Proofs.Machine.Writes`.
-/

namespace Treewalk

open List

variable {entry : Pending} {id : NodeId}

/-! ## Frames whose top one was written to -/

/-- The frames are the same except for the values of the top one, which are related by
`R`. -/
inductive Retouched (R : Table Value → Table Value → Prop) : List Frame → List Frame →
  Prop where
  | none : Retouched R [] []
  | top {name : String} {old new : Table Value} {rest : List Frame} (h : R old new) :
      Retouched R (⟨name, old⟩ :: rest) (⟨name, new⟩ :: rest)

namespace Retouched

variable {R : Table Value → Table Value → Prop} {before after : List Frame}

theorem refl (hR : ∀ values, R values values) : ∀ frames, Retouched R frames frames
  | [] => .none
  | ⟨_, values⟩ :: _ => .top (hR values)

theorem trans (hR : ∀ {a b c}, R a b → R b c → R a c) {first second third : List Frame}
    (h : Retouched R first second) (h' : Retouched R second third) :
    Retouched R first third := by
  cases h with
  | none => exact h'
  | top h =>
    cases h' with
    | top h' => exact .top (hR h h')

theorem length_eq (h : Retouched R before after) : after.length = before.length := by
  cases h <;> rfl

theorem tail_eq (h : Retouched R before after) : after.tail = before.tail := by
  cases h <;> rfl

theorem names_eq (h : Retouched R before after) :
    after.map Frame.name = before.map Frame.name := by
  cases h <;> rfl

/-- Writing to the top of a stack does not reach below its top. -/
theorem append {inner rest : List Frame} (hR : ∀ values, R values values)
    (h : Retouched R (inner ++ rest) after) :
    ∃ inner' rest', after = inner' ++ rest' ∧ inner'.length = inner.length ∧
      Retouched R rest rest' ∧ (inner ≠ [] → rest' = rest) := by
  cases inner with
  | nil => exact ⟨[], after, rfl, rfl, h, fun hne => absurd rfl hne⟩
  | cons frame inner =>
    cases h with
    | @top name old new _ h =>
      exact ⟨⟨name, new⟩ :: inner, rest, rfl, rfl, refl hR rest, fun _ => rfl⟩

end Retouched

/-- Any change of values. -/
def AnyValues (_ _ : Table Value) : Prop :=
  True

/-- Values under the same names. -/
def SameNames (before after : Table Value) : Prop :=
  after.names = before.names

theorem SameNames.refl (values : Table Value) : SameNames values values := rfl

theorem SameNames.trans {first second third : Table Value} (h : SameNames first second)
    (h' : SameNames second third) : SameNames first third :=
  Eq.trans h' h

theorem Frames.retouched_modifyTop {R : Table Value → Table Value → Prop}
    {f : Table Value → Table Value} (hf : ∀ values, R values (f values))
    (frames : Frames) :
    Retouched R frames.list (frames.modifyTop f).list := by
  obtain ⟨list, depth, h⟩ := frames
  cases list with
  | nil => exact .none
  | cons frame rest => exact .top (hf frame.values)

/-! ## The two stacks -/

/-- Whether the machine hands something on rather than starting it. -/
def Control.isOutcome : Control → Bool
  | .value _ => true
  | .flow _ => true
  | .fail _ => true
  | _ => false

/-- A statement has ended with `break`. -/
def Control.isBreak : Control → Bool
  | .flow .brk => true
  | _ => false

/-- Whether an entry takes a frame away. -/
def Pending.isLeave : Pending → Bool
  | .leave _ => true
  | _ => false

theorem Pending.leave_or (entry : Pending) :
    (∃ span, entry = .leave span) ∨ entry.isLeave = false := by
  cases entry with
  | leave span => exact .inl ⟨span, rfl⟩
  | _ => exact .inr rfl

/-- The number of frames that the entries will take away. -/
def leaves (pending : List Pending) : Nat :=
  pending.countP Pending.isLeave

@[simp] theorem leaves_nil : leaves [] = 0 := rfl

@[simp] theorem leaves_append (new pending : List Pending) :
    leaves (new ++ pending) = leaves new + leaves pending :=
  countP_append

theorem leaves_cons_leave (span : Option Span) (pending : List Pending) :
    leaves (.leave span :: pending) = leaves pending + 1 :=
  countP_cons_of_pos rfl

theorem leaves_cons_of_not_leave (h : entry.isLeave = false) (pending : List Pending) :
    leaves (entry :: pending) = leaves pending :=
  countP_cons_of_neg (by simp [h])

/-! ## Writers -/

/-- The name that executing the statement binds at once. -/
def Stmt.bound? : Stmt → Option String
  | .var _ name none => some name.node
  | .funcDecl _ decl => some decl.name.node
  | .classDecl _ decl => if decl.superclass.isNone then some decl.name.node else none
  | _ => none

/-- The scope and the name of the declaration that the value completes. -/
def Pending.declares? (value : Value) : Pending → Option (ScopeId × String)
  | .declare name env => some (env, name)
  | .superclass _ decl env =>
    if value.kind = .cls then some (env, decl.name.node) else none
  | _ => none

/-- The environment and the target of the assignment that waits for its value. -/
def Pending.assigns? : Pending → Option (ScopeId × String)
  | .assign _ _ name env => some (env, name)
  | _ => none

namespace Machine

/-- The declaration that the next transition carries out. -/
def declares? (m : Machine) : Option (ScopeId × String) :=
  match m.control, m.pending with
  | .exec stmt env, _ => stmt.bound?.map fun name => (env, name)
  | .value value, entry :: _ => entry.declares? value
  | _, _ => none

/-- The assignment that the next transition carries out. -/
def assigns? (m : Machine) : Option (ScopeId × String) :=
  match m.control, m.pending with
  | .value _, entry :: _ => entry.assigns?
  | _, _ => none

/-- The names that the machine may bind next, and where. -/
def Writes (m : Machine) (scope : ScopeId) (name : String) : Prop :=
  m.declares? = some (scope, name) ∨
    ∃ env, m.assigns? = some (env, name) ∧
      (scope ∈ m.world.heap.chain env ∨ scope = globalScope)

/-! ## Growth -/

/-- The machine has the given entries below new ones, a frame for each new `leave` on
top of the given frames, and those changed at most in the values of their top one.
Frames are put on top only while there are at most `limit` of them. -/
def Grown (limit : Nat) (pending : List Pending) (frames : List Frame) (m : Machine) :
    Prop :=
  ∃ new inner touched, m.pending = new ++ pending ∧
    m.world.frames.list = inner ++ touched ∧ inner.length = leaves new ∧
    Retouched AnyValues frames touched ∧
    m.world.frames.list.length ≤ max frames.length (limit + 1)

namespace Grown

variable {limit : Nat} {pending above : List Pending} {frames : List Frame}
  {control : Control}

theorem retouched {touched : World}
    (h : Retouched AnyValues frames touched.frames.list) :
    Grown limit pending frames ⟨touched, control, pending⟩ := by
  refine ⟨[], [], touched.frames.list, rfl, rfl, rfl, h, ?_⟩
  rw [h.length_eq]
  exact Nat.le_max_left _ _

/-- A transition that leaves the stacks alone. -/
theorem same (world : World) :
    Grown limit pending world.frames.list ⟨world, control, pending⟩ :=
  retouched (.refl (fun _ => trivial) _)

private theorem push (world : World) (h : entry.isLeave = false) :
    Grown limit pending world.frames.list ⟨world, control, entry :: pending⟩ :=
  ⟨[entry], [], world.frames.list, rfl, rfl, by simp [leaves_cons_of_not_leave h],
    .refl (fun _ => trivial) _, Nat.le_max_left _ _⟩

/-- Growth after growth. -/
theorem trans (above : List Pending) (inner : List Frame) {touched : List Frame}
    {m : Machine} (hlength : inner.length = leaves above)
    (htouched : Retouched AnyValues frames touched)
    (hbounded : (inner ++ touched).length ≤ max frames.length (limit + 1))
    (h : Grown limit (above ++ pending) (inner ++ touched) m) :
    Grown limit pending frames m := by
  obtain ⟨new, inner', touched', hpending, hframes, hlength', htouched', hbounded'⟩ := h
  obtain ⟨kept, rest, rfl, hkept, hrest, -⟩ := htouched'.append fun _ => trivial
  refine ⟨new ++ above, inner' ++ kept, rest, ?_, ?_, ?_, ?_, by omega⟩
  · rw [hpending, append_assoc]
  · rw [hframes, append_assoc]
  · rw [length_append, leaves_append, hlength', hkept, hlength]
  · exact htouched.trans (fun _ _ => trivial) hrest

/-- Growth on top of what has grown. -/
theorem after {world : World} {m : Machine}
    (h : Grown limit pending frames ⟨world, control, above⟩)
    (h' : Grown limit above world.frames.list m) : Grown limit pending frames m := by
  obtain ⟨new, inner, touched, hpending, hframes, hlength, htouched, hbounded⟩ := h
  rw [show above = new ++ pending from hpending, hframes] at h'
  rw [hframes] at hbounded
  exact trans new inner hlength htouched hbounded h'

private theorem enter {world : World} (name : String) (span : Option Span)
    (hlimit : world.frames.depth ≤ limit) :
    Grown limit pending world.frames.list
      ⟨⟨world.heap, world.frames.push name, world.output⟩, control,
        .leave span :: pending⟩ := by
  refine ⟨[.leave span], [⟨name, []⟩], world.frames.list, rfl, rfl, rfl,
    .refl (fun _ => trivial) _, ?_⟩
  rw [world.frames.depth_eq] at hlimit
  simp only [Frames.list_push, length_cons]
  omega

end Grown

/-! ## What is done -/

/-- What comes of a world and of what waits by the things that a transition may do, one
after the other. -/
inductive Does (ctx : Context) (Writes : ScopeId → String → Prop) (old : World)
    (base : List Pending) : World → List Pending → Prop
  | none : Does ctx Writes old base old base
  | edits {world : World} {pending : List Pending} {heap : Heap}
      (h : Does ctx Writes old base world pending)
      (edits : world.heap.Edits Writes heap) :
      Does ctx Writes old base ⟨heap, world.frames, world.output⟩ pending
  | prints {world : World} {pending : List Pending}
      (h : Does ctx Writes old base world pending) (output : String) :
      Does ctx Writes old base ⟨world.heap, world.frames, output⟩ pending
  | writes {world : World} {pending : List Pending}
      (h : Does ctx Writes old base world pending) (f : Table Value → Table Value) :
      Does ctx Writes old base ⟨world.heap, world.frames.modifyTop f, world.output⟩
        pending
  | waits {world : World} {pending : List Pending} {entry : Pending}
      (h : Does ctx Writes old base world pending) (stays : entry.isLeave = false) :
      Does ctx Writes old base world (entry :: pending)
  | enters {world : World} {pending : List Pending}
      (h : Does ctx Writes old base world pending) (name : String) (span : Option Span)
      (depth : world.frames.depth ≤ ctx.settings.maxCallDepth) :
      Does ctx Writes old base ⟨world.heap, world.frames.push name, world.output⟩
        (.leave span :: pending)

/-- The machine comes about by the things that a transition may do, and it hands on a
`break` only if one may be made. -/
structure Leads (ctx : Context) (Writes : ScopeId → String → Prop) (breaks : Prop)
    (old : World) (base : List Pending) (m : Machine) : Prop where
  does : Does ctx Writes old base m.world m.pending
  control : m.control.isBreak = true → breaks

section

variable {ctx : Context} {Writes : ScopeId → String → Prop} {breaks : Prop}
  {old world : World} {base pending : List Pending} {m : Machine} {env : ScopeId}
  {name : String}

theorem Does.heap (h : Does ctx Writes old base world pending) :
    old.heap.Edits Writes world.heap := by
  induction h with
  | none => exact .none
  | edits _ edits ih => exact ih.trans edits
  | _ => assumption

private theorem Does.grown (h : Does ctx Writes old base world pending)
    {control : Control} :
    Grown ctx.settings.maxCallDepth base old.frames.list ⟨world, control, pending⟩ := by
  induction h with
  | none => exact .same _
  | writes _ f ih =>
    exact ih.after (.retouched (Frames.retouched_modifyTop (fun _ => trivial) _))
  | waits _ stays ih => exact ih.after (.push _ stays)
  | enters _ name span depth ih => exact ih.after (.enter name span depth)
  | _ => assumption

theorem Leads.grown (h : Leads ctx Writes breaks old base m) :
    Grown ctx.settings.maxCallDepth base old.frames.list m :=
  h.does.grown

private theorem Does.leads (h : Does ctx Writes old base world pending)
    {control : Control} (hcontrol : control.isBreak = false) :
    Leads ctx Writes breaks old base ⟨world, control, pending⟩ :=
  ⟨h, fun hbreak => absurd hbreak (Bool.eq_false_iff.1 hcontrol)⟩

/-! ### Calls -/

section

variable (h : Does ctx Writes old base world pending)

include h

private theorem leads_answer (span : Option Span) (result : Except Cause Value) :
    Leads ctx Writes breaks old base (answer world pending span result) := by
  cases result <;> exact h.leads rfl

private theorem leads_callFunction (function : Function) (args : List Value) :
    Leads ctx Writes breaks old base (callFunction world pending function args) :=
  Does.leads (((h.edits (.makeChild .none function.closure _)).waits rfl).waits rfl) rfl

private theorem leads_construct (cls : Class) (args : List Value) :
    Leads ctx Writes breaks old base (construct world pending cls args) := by
  have hmade := h.edits (.makeInstance .none cls)
  unfold construct
  simp only
  split
  · exact hmade.leads rfl
  · exact leads_callFunction ((hmade.edits (.bind .none _ _)).waits rfl) _ args

private theorem leads_invoke (name : String) (callee : Value) (args : List Value) :
    Leads ctx Writes breaks old base (invoke world pending name callee args) := by
  unfold invoke
  split
  · exact h.leads rfl
  · split
    · split
      · exact leads_callFunction h _ args
      · exact leads_construct h _ args
      · exact h.leads rfl
    · exact h.leads rfl

/-- The end of the arguments writes to the frame of the call, which is the top one. -/
private theorem leads_complete (call : Call) (args : List (Expr × Value)) :
    Leads ctx Writes breaks old base (complete ctx world pending call args) := by
  have hadded := h.writes fun values => values.putAll (namedArguments args)
  unfold complete
  simp only
  split
  · exact leads_invoke hadded _ _ _
  · exact hadded.leads rfl
  · split
    · exact leads_invoke hadded _ _ _
    · exact hadded.leads rfl

private theorem leads_nextArgument (call : Call) (done : List (Expr × Value))
    (rest : List Expr) :
    Leads ctx Writes breaks old base
      (nextArgument ctx world pending call done rest) := by
  cases rest with
  | nil => exact leads_complete h call _
  | cons expr rest => exact (h.waits rfl).leads rfl

theorem leads_enter (name : String) (span : Option Span)
    {next : World → List Pending → Machine}
    (hnext : ∀ {world pending}, Does ctx Writes old base world pending →
      Leads ctx Writes breaks old base (next world pending)) :
    Leads ctx Writes breaks old base (enter ctx world pending name span next) := by
  unfold enter
  split
  · exact h.leads rfl
  · rename_i hdepth
    exact hnext (h.enters name span (Nat.le_of_not_gt hdepth))

theorem leads_startCall (call : Call) (args : List Expr) :
    Leads ctx Writes breaks old base (startCall ctx world pending call args) :=
  leads_enter h call.name (some call.span) fun h => leads_nextArgument h call [] args

/-! ### Expressions and statements -/

private theorem does_bind (method : Function) (receiver : Value) :
    Does ctx Writes old base (world.bind method receiver).2 pending :=
  h.edits (.bind .none method receiver)

private theorem does_take (property : Heap.Property × Instance) :
    Does ctx Writes old base (world.take property).2 pending := by
  obtain ⟨_ | method, inst⟩ := property
  · exact h
  · exact does_bind h method (.inst inst)

private theorem leads_evaluateCall (env : ScopeId) (span : Span) (id : NodeId)
    (callee : Expr) (args : List Expr) :
    Leads ctx Writes breaks old base
      (evaluateCall ctx world pending env span id callee args) := by
  cases callee with
  | get access object name => exact (h.waits rfl).leads rfl
  | super access method =>
    simp only [evaluateCall]
    split
    · exact h.leads rfl
    · exact leads_startCall (does_bind h _ _) _ args
  | var access calleeId name => exact leads_startCall h _ args
  | _ => exact h.leads rfl

private theorem leads_evaluate (env : ScopeId) (expr : Expr) :
    Leads ctx Writes breaks old base (evaluate ctx world pending env expr) := by
  cases expr with
  | call span id callee args => exact leads_evaluateCall h env span id callee args
  | grouping span inner => exact h.leads rfl
  | literal span value => exact h.leads rfl
  | super span method =>
    simp only [evaluate]
    split
    · exact h.leads rfl
    · exact (does_bind h _ _).leads rfl
  | this span =>
    simp only [evaluate]
    split <;> exact h.leads rfl
  | var span id name => exact leads_answer h _ _
  | _ => exact (h.waits rfl).leads rfl

private theorem leads_declareVar (henv : Writes env name) (value : Value) :
    Leads ctx Writes breaks old base (declareVar world pending env name value) :=
  Does.leads ((h.edits (.define .none henv value)).writes _) rfl

omit h in
theorem edits_declareClass {decl : ClassDecl} (henv : Writes env decl.name.node)
    (superclass : Option Class) :
    world.heap.Edits Writes
      (declareClass world pending env decl superclass).world.heap := by
  have hcleared : world.heap.Edits Writes
    (world.heap.define env decl.name.node .nothing) := .define .none henv .nothing
  cases superclass with
  | none =>
    exact (hcleared.makeClass decl.name.node none decl.methods env).define henv _
  | some superclass =>
    have hmade :=
      (hcleared.makeChild env [("super", .cls superclass)]).makeClass decl.name.node
      (some superclass) decl.methods
      (world.heap.define env decl.name.node .nothing).scopes.size
    exact hmade.define henv _

private theorem leads_declareClass {decl : ClassDecl} (henv : Writes env decl.name.node)
    (superclass : Option Class) :
    Leads ctx Writes breaks old base (declareClass world pending env decl superclass) :=
  Does.leads ((h.edits (@edits_declareClass _ _ pending _ _ henv superclass)).writes _)
    rfl

private theorem leads_execute {stmt : Stmt}
    (henv : ∀ name, stmt.bound? = some name → Writes env name)
    (hbreak : ctx.settings.breakPolicy = .loop → breaks) :
    Leads ctx Writes breaks old base (execute ctx world pending env stmt) := by
  cases stmt with
  | block span body => exact ((h.edits (.makeChild .none env [])).waits rfl).leads rfl
  | funcDecl span decl =>
    exact (h.edits (.define (.draw .none) (henv _ rfl) _)).leads rfl
  | classDecl span decl =>
    simp only [execute]
    split
    · exact (h.waits rfl).leads rfl
    · rename_i hnone
      exact leads_declareClass h (henv _ (by rw [Stmt.bound?, hnone]; rfl)) none
  | print span newline operand =>
    cases operand with
    | none => exact h.leads rfl
    | some operand => exact (h.waits rfl).leads rfl
  | ret span operand =>
    cases operand with
    | none => exact h.leads rfl
    | some operand => exact (h.waits rfl).leads rfl
  | brk span =>
    refine ⟨h, fun hbrk => hbreak ?_⟩
    cases hpolicy : ctx.settings.breakPolicy with
    | loop => rfl
    | function =>
      simp only [execute, hpolicy] at hbrk
      cases hbrk
  | var span name init =>
    cases init with
    | none => exact leads_declareVar h (henv _ rfl) _
    | some init => exact (h.waits rfl).leads rfl
  | _ => exact (h.waits rfl).leads rfl

private theorem leads_printValue (newline : Bool) (value : Value) :
    Leads ctx Writes breaks old base (printValue world pending newline value) := by
  unfold printValue
  split
  · exact (h.prints _).leads rfl
  · exact h.leads rfl

private theorem leads_callNative (name : String) (args : List Value) :
    Leads ctx Writes breaks old base (callNative ctx world pending name args) := by
  obtain ⟨heap, frames, output⟩ := world
  have hdrawn := h.edits (.draw .none)
  simp only [callNative]
  split
  · exact hdrawn.leads rfl
  · split
    · exact hdrawn.leads rfl
    · exact hdrawn.leads rfl

/-! ### Outcomes -/

omit h in
/-- An assignment changes a scope that its environment sees, or the global one. -/
private theorem mem_chain_or_global_of_scopeSlot {scope : ScopeId}
    (h : ctx.scopeSlot world name id env = .ok scope) :
    scope ∈ world.heap.chain env ∨ scope = globalScope := by
  unfold Context.scopeSlot at h
  split at h
  · unfold Heap.slotAt Heap.ancestor at h
    simp only at h
    split at h
    · cases h
    · rename_i hancestor
      split at hancestor
      · rename_i hat
        split at h
        · cases h
          cases hancestor
          exact .inl (mem_of_getElem? hat)
        · cases h
      · cases hancestor
  · cases hread : world.readGlobal name env with
    | error cause =>
      rw [hread] at h
      cases h
    | ok value =>
      rw [hread] at h
      cases h
      exact .inr rfl

omit h in
theorem edits_assign {slots : Slots} (hslots : ctx.slots world name id env = .ok slots)
    (henv : ∀ scope, scope ∈ world.heap.chain env ∨ scope = globalScope →
      Writes scope name) (value : Value) :
    world.heap.Edits Writes (world.assign slots name value).heap := by
  obtain ⟨frame, scope⟩ := slots
  unfold Context.slots at hslots
  simp only at hslots
  split at hslots
  · rename_i scope hscope
    cases hslots
    exact .define .none (henv scope (mem_chain_or_global_of_scopeSlot hscope)) value
  · split at hslots
    · cases hslots
      exact .none
    · cases hslots

private theorem does_assign {slots : Slots}
    (hslots : ctx.slots world name id env = .ok slots)
    (henv : ∀ scope, scope ∈ world.heap.chain env ∨ scope = globalScope →
      Writes scope name) (value : Value) :
    Does ctx Writes old base (world.assign slots name value) pending := by
  have hedited := h.edits (edits_assign hslots henv value)
  obtain ⟨_ | _, _ | scope⟩ := slots
  · exact hedited
  · exact hedited
  · exact hedited.writes (Table.put name value)
  · exact hedited.writes (Table.put name value)

/-- Handing on a value: an entry other than `leave` goes and what is done, is done below
it. -/
theorem leads_receive (value : Value) (stays : entry.isLeave = false)
    (hdeclares : ∀ env name, entry.declares? value = some (env, name) → Writes env name)
    (hassigns : ∀ env name, entry.assigns? = some (env, name) →
      ∀ scope, scope ∈ world.heap.chain env ∨ scope = globalScope → Writes scope name) :
    Leads ctx Writes breaks old base (receive ctx world pending value entry) := by
  cases entry with
  | leave span => cases stays
  | assign span id name env =>
    simp only [receive]
    split
    · rename_i hslots
      exact (does_assign h hslots (hassigns env name rfl) value).leads rfl
    · exact h.leads rfl
  | binaryRight span left op => exact leads_answer h _ _
  | logical op right env =>
    cases op <;> (simp only [receive]; split <;> exact h.leads rfl)
  | unary span op => exact leads_answer h _ _
  | get span name =>
    simp only [receive]
    split
    · exact h.leads rfl
    · exact (does_take h _).leads rfl
  | setObject span name operand env =>
    cases value <;> first | exact h.leads rfl | exact (h.waits rfl).leads rfl
  | setField inst name => exact (h.edits (.setField .none inst name value)).leads rfl
  | receiver span access name args env =>
    simp only [receive]
    split
    · exact h.leads rfl
    · exact leads_startCall (does_take h _) _ args
  | argument call done current rest => exact leads_nextArgument h call _ rest
  | construct inst => exact h.leads rfl
  | declare name env => exact leads_declareVar h (hdeclares env name rfl) value
  | branch onTrue onFalse env =>
    simp only [receive]
    split
    · exact h.leads rfl
    · split <;> exact h.leads rfl
  | loopTest cond body env =>
    simp only [receive]
    split
    · exact (h.waits rfl).leads rfl
    · exact h.leads rfl
  | print newline => exact leads_printValue h newline value
  | ret => exact h.leads rfl
  | discard => exact h.leads rfl
  | superclass span decl env =>
    cases value with
    | cls superclass =>
      exact leads_declareClass h (hdeclares env _ rfl) (some superclass)
    | _ => exact h.leads rfl
  | _ => exact (h.waits rfl).leads rfl

private theorem leads_proceed {flow : Flow}
    (hflow : (Control.flow flow).isBreak = true → breaks)
    (stays : entry.isLeave = false) :
    Leads ctx Writes breaks old base (proceed ctx world pending flow entry) := by
  cases entry with
  | leave span => cases stays
  | seq rest env =>
    simp only [proceed]
    split
    · exact (h.waits rfl).leads rfl
    · exact ⟨h, hflow⟩
  | loopBody cond body env =>
    cases flow with
    | normal => exact (h.waits rfl).leads rfl
    | ret value => exact h.leads rfl
    | brk => exact h.leads rfl
  | result function => exact leads_answer h _ _
  | enterMain =>
    simp only [proceed]
    split
    · exact h.leads rfl
    · exact leads_enter h _ _ fun h => leads_invoke h _ _ _
  | _ => exact ⟨h.waits rfl, hflow⟩

private theorem leads_unwind (error : RuntimeError) (stays : entry.isLeave = false) :
    Leads ctx Writes breaks old base (unwind world pending error entry) := by
  cases entry with
  | leave span => cases stays
  | _ => exact h.leads rfl

end

theorem grown_nextArgument (call : Call) (done : List (Expr × Value))
    (rest : List Expr) :
    Grown ctx.settings.maxCallDepth pending world.frames.list
      (nextArgument ctx world pending call done rest) :=
  have hleads : Leads ctx (fun _ _ => True) True _ _ _ :=
    leads_nextArgument .none call done rest
  hleads.grown

end

theorem frames_bind (world : World) (method : Function) (receiver : Value) :
    (world.bind method receiver).2.frames = world.frames := rfl

theorem frames_take (world : World) (property : Heap.Property × Instance) :
    (world.take property).2.frames = world.frames := by
  obtain ⟨property, inst⟩ := property
  cases property <;> rfl

theorem frames_assign (world : World) (slots : Slots) (name : String) (value : Value) :
    (world.assign slots name value).frames =
      if slots.frame then world.frames.add name value else world.frames := by
  unfold World.assign
  simp only
  split <;> rfl

/-! ## All transitions -/

/-- One transition, by what the machine was about to do. It makes a `break` only where
the settings say so, or hands one on. -/
inductive Moves (ctx : Context) (m next : Machine) : Prop where
  /-- It starts something: everything grows on top of what is there. -/
  | starts (running : m.control.isOutcome = false)
      (leads : Leads ctx m.Writes (ctx.settings.breakPolicy = .loop) m.world
        m.pending next)
  /-- It hands an outcome to an entry other than `leave`. -/
  | hands {entry : Pending} {rest : List Pending} (outcome : m.control.isOutcome = true)
      (first : m.pending = entry :: rest) (stays : entry.isLeave = false)
      (leads : Leads ctx m.Writes (m.control.isBreak = true) m.world rest next)
  /-- It hands an outcome to a `leave`, which takes the top frame away. -/
  | leaves {span : Option Span} {rest : List Pending} {control : Control}
      (outcome : m.control.isOutcome = true) (first : m.pending = .leave span :: rest)
      (popped : next =
        ⟨⟨m.world.heap, m.world.frames.pop, m.world.output⟩, control, rest⟩)
      (handed : (∃ value, control = .value value) ∨ ∃ error, control = .fail error)
  /-- It does nothing. -/
  | rests (same : next = m)

/-- Every transition is one of these. -/
theorem step_moves (ctx : Context) (m : Machine) : Moves ctx m (step ctx m) := by
  obtain ⟨world, control, pending⟩ := m
  cases control with
  | eval expr env => exact .starts rfl (leads_evaluate .none env expr)
  | exec stmt env =>
    refine .starts rfl (leads_execute .none (fun name hbound => .inl ?_) id)
    simp only [declares?, hbound, Option.map_some]
  | native name args => exact .starts rfl (leads_callNative .none name args)
  | value value =>
    cases pending with
    | nil => exact .rests rfl
    | cons entry rest =>
      rcases entry.leave_or with ⟨span, rfl⟩ | stays
      · exact .leaves rfl rfl rfl (.inl ⟨_, rfl⟩)
      · exact .hands rfl rfl stays
          (leads_receive .none value stays (fun env name hdeclares => .inl hdeclares)
            fun env name hassigns scope hsight => .inr ⟨env, hassigns, hsight⟩)
  | flow flow =>
    cases pending with
    | nil => exact .rests rfl
    | cons entry rest =>
      rcases entry.leave_or with ⟨span, rfl⟩ | stays
      · exact .rests rfl
      · exact .hands rfl rfl stays (leads_proceed .none id stays)
  | fail error =>
    cases pending with
    | nil => exact .rests rfl
    | cons entry rest =>
      rcases entry.leave_or with ⟨span, rfl⟩ | stays
      · exact .leaves rfl rfl rfl (.inr ⟨_, rfl⟩)
      · exact .hands rfl rfl stays (leads_unwind .none error stays)

variable {ctx : Context} {m next : Machine}

private theorem Moves.edits (h : Moves ctx m next) :
    m.world.heap.Edits m.Writes next.world.heap := by
  cases h with
  | starts _ leads => exact leads.does.heap
  | hands _ _ _ leads => exact leads.does.heap
  | leaves _ _ popped _ =>
    rw [popped]
    exact .none
  | rests same =>
    rw [same]
    exact .none

/-- A transition binds names only where its code may write. -/
theorem step_edits (ctx : Context) (m : Machine) :
    m.world.heap.Edits m.Writes (step ctx m).world.heap :=
  (step_moves ctx m).edits

/-- Where `break` leaves the function, no transition makes a `break`. -/
theorem isBreak_step (hpolicy : ctx.settings.breakPolicy = .function)
    (h : m.control.isBreak = false) :
    (step ctx m).control.isBreak = false := by
  cases step_moves ctx m with
  | starts _ leads =>
    exact Bool.eq_false_iff.2 fun hbreak => by
      cases hpolicy.symm.trans (leads.control hbreak)
  | hands _ _ _ leads =>
    exact Bool.eq_false_iff.2 fun hbreak => Bool.eq_false_iff.1 h (leads.control hbreak)
  | leaves _ _ popped handed =>
    rw [popped]
    obtain ⟨value, rfl⟩ | ⟨error, rfl⟩ := handed <;> rfl
  | rests same =>
    rw [same]
    exact h

end Machine

end Treewalk
