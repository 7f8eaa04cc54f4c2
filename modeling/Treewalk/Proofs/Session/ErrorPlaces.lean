import Treewalk.Proofs.Machine.Places
import Treewalk.Proofs.Machine.Writes
import Treewalk.Proofs.Session.Piecewise
import Treewalk.Proofs.Token.LongestMatch

/-!
# Where errors are reported

An error of the scanner is at the part of the text where it is stuck, one of the parser
at the token that it refuses or after the last token, and one of resolution at the name
of a superclass. An error of a run is at an expression of the program. There is one
exception: the call of the entry point stands nowhere in the text, and what this call
itself fails for has no place.

* `Machine.Early.step` — the declarations before the entry point.
* `Session.errors_have_places` — all errors of a text in a fresh session.
-/

namespace Treewalk

open List

variable {tokens : List (Located Token)} {next : NodeId} {source : String}
  {session : Session} {error : Error} {ts : Tokens} {fault? : Option ResolveError}
  {rest : List Stmt} {world : World} {program : Program} {session' : Session}

/-! ## Errors of resolution -/

private theorem Stmt.listFault?_append (body body' : List Stmt) :
    listFault? (body ++ body') = (listFault? body).or (listFault? body') := by
  induction body with
  | nil => rfl
  | cons stmt body ih => rw [cons_append, listFault?, ih, listFault?, Option.or_assoc]

theorem FunctionDecl.listFault?_append (decls decls' : List FunctionDecl) :
    listFault? (decls ++ decls') = (listFault? decls).or (listFault? decls') := by
  induction decls with
  | nil => rfl
  | cons decl decls ih => rw [cons_append, listFault?, ih, listFault?, Option.or_assoc]

namespace Grammar

/-- What is found at fault is one of the tokens. -/
def Blames (ts : Tokens) (fault? : Option ResolveError) : Prop :=
  ∀ fault, fault? = some fault → ∃ t ∈ ts, t.span = fault.span

private theorem Blames.none : Blames ts none :=
  nofun

private theorem Blames.mono {us : Tokens} (h : Blames ts fault?)
    (hsub : ∀ t ∈ ts, t ∈ us) : Blames us fault? := by
  intro fault hfault
  obtain ⟨t, ht, hspan⟩ := h fault hfault
  exact ⟨t, hsub t ht, hspan⟩

private theorem Blames.or {us vs : Tokens} {other? : Option ResolveError}
    (h : Blames ts fault?) (h' : Blames us other?) (hsub : ∀ t ∈ ts, t ∈ vs)
    (hsub' : ∀ t ∈ us, t ∈ vs) : Blames vs (fault?.or other?) := by
  intro fault hfault
  rcases Option.or_eq_some_iff.1 hfault with hfault | ⟨-, hfault⟩
  · exact h.mono hsub fault hfault
  · exact h'.mono hsub' fault hfault

mutual

private theorem Declarations.blames {ts : Tokens} {n m : NodeId} {body : List Stmt} :
    Declarations ts n body m → Blames ts (Stmt.listFault? body)
  | .nil => .none
  | .more hbody hs => by
    rw [Stmt.listFault?_append, Stmt.listFault?, Stmt.listFault?, Option.or_none]
    exact hbody.blames.or hs.blames (by simp +contextual) (by simp +contextual)

private theorem Declaration.blames {ts : Tokens} {n m : NodeId} {s : Stmt} :
    Declaration ts n s m → Blames ts s.fault?
  | .function h => by
    rw [Stmt.fault?]
    exact h.blames
  | .cls .none hms => by
    rw [Stmt.fault?, ClassDecl.fault?]
    exact hms.blames.mono (by simp +contextual [braced])
  | @Declaration.cls x a b c d e _ _ _ _ _ _ _ (.some (x := y) (b := g)) hms => by
    have hown : Blames [⟨.ident y, g⟩] (ClassDecl.ownFault? ⟨x, b⟩ (.var g n y)) := by
      intro fault hfault
      obtain ⟨-, hfault⟩ := Option.ite_none_right_eq_some.1 hfault
      cases hfault
      exact ⟨_, mem_cons_self, rfl⟩
    rw [Stmt.fault?, ClassDecl.fault?]
    exact hown.or hms.blames (by simp +contextual) (by simp +contextual [braced])
  | .statement h => h.blames

private theorem FunctionDeclaration.blames {ts : Tokens} {n m : NodeId}
    {decl : FunctionDecl} :
    FunctionDeclaration ts n decl m → Blames ts decl.fault?
  | .mk _ hbody => by
    rw [FunctionDecl.fault?]
    exact hbody.blames.mono (by simp +contextual [braced])

private theorem Methods.blames {ts : Tokens} {n m : NodeId}
    {methods : List FunctionDecl} :
    Methods ts n methods m → Blames ts (FunctionDecl.listFault? methods)
  | .nil => .none
  | .more hms hdecl => by
    rw [FunctionDecl.listFault?_append, FunctionDecl.listFault?,
      FunctionDecl.listFault?, Option.or_none]
    exact hms.blames.or hdecl.blames (by simp +contextual) (by simp +contextual)

private theorem Statement.blames {ts : Tokens} {n m : NodeId} {s : Stmt} :
    Statement ts n s m → Blames ts s.fault?
  | .var => .none
  | .varInit _ => .none
  | .print _ => .none
  | .ret _ => .none
  | .brk => .none
  | .conditional h => h.blames
  | .loop _ hbody => by
    rw [Stmt.fault?, Stmt.fault?]
    exact hbody.blames.mono (by simp +contextual [braced])
  | .block hbody => by
    rw [Stmt.fault?]
    exact hbody.blames.mono (by simp +contextual [braced])
  | .expression _ => .none

private theorem Conditional.blames {ts : Tokens} {n m : NodeId} {s : Stmt} :
    Conditional ts n s m → Blames ts s.fault?
  | .plain _ hbody => by
    rw [Stmt.fault?, Stmt.fault?]
    exact hbody.blames.mono (by simp +contextual [braced])
  | .otherwise _ hbody hother => by
    rw [Stmt.fault?, Stmt.fault?, Stmt.fault?]
    exact hbody.blames.or hother.blames (by simp +contextual [braced])
      (by simp +contextual [braced])
  | .chained _ hbody h => by
    rw [Stmt.fault?, Stmt.fault?]
    exact hbody.blames.or h.blames (by simp +contextual [braced]) (by simp +contextual)

end

end Grammar

/-! ## Before the entry point -/

/-- What a declaration makes. -/
inductive Value.Declared : Value → Prop
  | function (function : Function) : Declared (.callable (.function function))
  | cls (cls : Class) : Declared (.cls cls)

/-- The entry point, once it is bound, is a function or a class. -/
def Heap.MainDeclared (heap : Heap) : Prop :=
  ∀ value, (heap.bindings globalScope).get? entryPoint = some value → value.Declared

private theorem Heap.eq_of_get?_define {heap : Heap} {env : ScopeId} {name : String}
    {value found : Value}
    (h : ((heap.define env name value).bindings env).get? name = some found) :
    found = value := by
  have hlt : env < heap.scopes.size := by
    have hsize := lt_size_of_get? h
    simpa [define] using hsize
  rw [bindings_define_self hlt, Table.get?_put_self] at h
  exact (Option.some.inj h).symm

private theorem Heap.MainDeclared.sets {heap heap' : Heap} {name : String}
    {value : Value} (h : heap.MainDeclared)
    (hsets : heap.Sets heap' globalScope name value)
    (hsize : globalScope < heap.scopes.size) (hvalue : value.Declared) :
    heap'.MainDeclared := by
  intro found hfound
  by_cases hname : entryPoint = name
  · rw [hname, hsets.self] at hfound
    cases hfound
    exact hvalue
  · rw [hsets.other globalScope hsize entryPoint fun hsame => hname hsame.2] at hfound
    exact h found hfound

theorem Heap.mainDeclared_start (natives : List Native) :
    (Heap.start natives).MainDeclared := by
  intro value hvalue
  have hmem := Table.mem_of_get? hvalue
  simp only [Heap.start, Heap.bindings, Heap.makeScope, Heap.empty, globalScope] at hmem
  obtain ⟨native, -, hname, -⟩ : ∃ native ∈ natives, native.name = entryPoint ∧ _ := by
    simpa using hmem
  have hother : native.name ≠ entryPoint := by cases native <;> decide
  exact absurd hname hother

namespace Machine

open Stock

variable {place : Span → Prop} {plan : List Site} {origins : List Origin}
  {acts : List Act} {ctx : Context}

/-- The states before the entry point is called: one declaration after the other is
executed, with a look-up of the superclass of a class. -/
inductive Early (place : Span → Prop) : Machine → Prop where
  | next {world : World} {rest : List Stmt} (hmain : world.heap.MainDeclared) :
      Early place ⟨world, .flow .normal, [.seq rest globalScope, .enterMain]⟩
  | declaration {world : World} {stmt : Stmt} {rest : List Stmt}
      (hmain : world.heap.MainDeclared) :
      Early place ⟨world, .exec stmt globalScope, [.seq rest globalScope, .enterMain]⟩
  | lookup {world : World} {span : Span} {id : NodeId} {name : String}
      {decl : ClassDecl} {rest : List Stmt} (hspan : place span)
      (hmain : world.heap.MainDeclared) :
      Early place ⟨world, .eval (.var span id name) globalScope,
        [.superclass span decl globalScope, .seq rest globalScope, .enterMain]⟩
  | found {world : World} {value : Value} {span : Span} {decl : ClassDecl}
      {rest : List Stmt} (hspan : place span) (hmain : world.heap.MainDeclared) :
      Early place ⟨world, .value value,
        [.superclass span decl globalScope, .seq rest globalScope, .enterMain]⟩
  | enterMain {world : World} (hmain : world.heap.MainDeclared) :
      Early place ⟨world, .flow .normal, [.enterMain]⟩

/-- What the call of the entry point itself may fail for. -/
def EntryCause (ctx : Context) (cause : Cause) : Prop :=
  cause = .stackOverflow ctx.settings.maxCallDepth ∨ ∃ expected,
    cause = .arity entryPoint expected 0

/-- The call of the entry point itself fails: the run comes to this call, and the call
is what fails. -/
structure EntryFails (ctx : Context) (start : Machine) (cause : Cause) : Prop where
  reason : EntryCause ctx cause
  call : ∃ before, Reaches ctx start before ∧ before.control = .flow .normal ∧
    before.pending = [.enterMain] ∧ (before.step ctx).control = .fail ⟨cause, none⟩

/-- The error has no place and will not get one. -/
structure Placeless (cause : Cause) (m : Machine) : Prop where
  control : m.control = .fail ⟨cause, none⟩
  pending : m.pending = [] ∨ m.pending = [.leave none]

private theorem Placeless.step {cause : Cause} {m : Machine} (h : Placeless cause m) :
    Placeless cause (m.step ctx) := by
  obtain ⟨world, control, pending⟩ := m
  obtain ⟨rfl, rfl | rfl⟩ : control = .fail ⟨cause, none⟩ ∧
    (pending = [] ∨ pending = [.leave none]) :=
    ⟨h.control, h.pending⟩
  · exact ⟨rfl, .inl rfl⟩
  · exact ⟨rfl, .inl rfl⟩

private theorem not_flowStack_prologue {log : History} {owed : List String}
    {env : ScopeId} :
    ¬FlowStack plan log acts owed [.seq rest env, .enterMain] := by
  intro h
  cases h with
  | seq _ _ houtside =>
    cases houtside with
    | block _ hstack => cases hstack

private theorem early_declareClass {span : Span} {decl : ClassDecl}
    {superclass : Option Class}
    (hground : Ground plan origins [⟨globalScope, [], false⟩] world)
    (hrest : DeclarationsOk plan (.classDecl span decl :: rest))
    (hmatch : superclass.isSome = decl.superclass.isSome)
    (hsuper : ∀ cls, superclass = some cls → ClassOk plan ⟨world.heap, origins⟩ cls)
    (hmain : world.heap.MainDeclared) :
    Early place (declareClass world [.seq rest globalScope, .enterMain] globalScope decl
      superclass) := by
  have hhead := hrest.head
  simp only [Stmt.sites, Stmt.formed] at hhead
  obtain ⟨heap, value, hmade, -, hsets, -⟩ :=
    hground.declareClass hhead.1 hhead.2 hmatch hsuper
      [.seq rest globalScope, .enterMain]
  have hvalue : value.Declared := by
    have hheap :
      (declareClass world [.seq rest globalScope, .enterMain] globalScope decl
        superclass).world.heap = heap := by
      rw [hmade]
    have hself := hsets.self
    rw [← hheap] at hself
    simp only [declareClass] at hself
    rw [Heap.eq_of_get?_define hself]
    exact .cls _
  rw [hmade]
  exact .next (hmain.sets hsets hground.place.lt_size hvalue)

private theorem early_execute {stmt : Stmt}
    (hground : Ground plan origins [⟨globalScope, [], false⟩] world)
    (hrest : DeclarationsOk plan (stmt :: rest)) (hcode : Charted place stmt.parts)
    (hmain : world.heap.MainDeclared) :
    Early place (execute ctx world [.seq rest globalScope, .enterMain] globalScope
      stmt) := by
  cases stmt with
  | funcDecl span decl =>
    have hhead := hrest.head
    simp only [Stmt.sites, Stmt.formed, cons_subset] at hhead
    obtain ⟨hsets, -⟩ := hground.declareFunction hhead.1.1 hhead.1.2 hhead.2 rfl
    exact .next (hmain.sets hsets hground.place.lt_size (.function _))
  | classDecl span decl =>
    have hhead := hrest.head
    obtain ⟨name, superclass, methods, span'⟩ := decl
    cases superclass with
    | none => exact @early_declareClass _ _ _ _ _ _ _ none hground hrest rfl nofun hmain
    | some superclass =>
      have hspan : place superclass.span := by
        refine hcode superclass ?_
        simp [Stmt.parts, ClassDecl.parts, Expr.optionParts, superclass.self_mem_parts]
      simp only [Stmt.formed, ClassDecl.formed, Bool.and_eq_true] at hhead
      -- A parsed class names its superclass by a plain variable.
      cases superclass with
      | var access id other => exact .lookup hspan hmain
      | _ => cases hhead.2.1
  | _ => cases hrest.declarations _ mem_cons_self

/-- The call of the entry point fails itself, or every error that follows gets a
place. -/
private theorem locates_enterMain (hbinds : world.heap.Binds globalScope entryPoint)
    (hmain : world.heap.MainDeclared) :
    Locates place (proceed ctx world [] .normal .enterMain) ∨
      ∃ cause, EntryCause ctx cause ∧
        Placeless cause (proceed ctx world [] .normal .enterMain) := by
  obtain ⟨main, hget⟩ := Heap.binds_iff.1 hbinds
  have hread : world.readGlobal entryPoint globalScope = .ok main := by
    simp only [World.readGlobal, hget]
  have hleave : Anchored place [.leave none] := .silent .nil rfl rfl
  simp only [proceed, hread, enter]
  split
  · exact .inr ⟨_, .inl rfl, rfl, .inl rfl⟩
  · -- What is called is a function or a class, so that only the number of its
    -- parameters can be wrong.
    cases hmain main hget with
    | function function =>
      simp only [invoke, Value.callable?]
      split
      · exact .inl (locates_callFunction hleave function [])
      · exact .inr ⟨_, .inr ⟨_, rfl⟩, rfl, .inr rfl⟩
    | cls cls =>
      simp only [invoke, Value.callable?]
      split
      · exact .inl (locates_construct hleave cls [])
      · exact .inr ⟨_, .inr ⟨_, rfl⟩, rfl, .inr rfl⟩

/-- The transitions before the entry point is called. -/
theorem Early.step {m : Machine} (h : Early place m)
    (hstanding : Standing plan origins acts m)
    (hcode : ∀ expr, .code expr ∈ m.control.contents → place expr.span) :
    Early place (m.step ctx) ∨ Locates place (m.step ctx) ∨
      (m.control = .flow .normal ∧ m.pending = [.enterMain] ∧
        ∃ cause, EntryCause ctx cause ∧ Placeless cause (m.step ctx)) := by
  obtain ⟨hground, hcontrol⟩ := hstanding
  cases h with
  | @next world rest hmain =>
    cases rest with
    | nil => exact .inl (.enterMain hmain)
    | cons stmt rest => exact .inl (.declaration hmain)
  | @declaration world stmt rest hmain =>
    cases hcontrol with
    | exec _ _ hstack => exact absurd hstack not_flowStack_prologue
    | declaration hrest _ =>
      refine .inl (early_execute hground hrest (fun expr hexpr => hcode expr ?_) hmain)
      exact mem_append_left _ (mem_map_of_mem hexpr)
  | @lookup world span id name decl rest hspan hmain =>
    simp only [Machine.step, evaluate]
    cases ctx.read world name id globalScope with
    | ok value => exact .inl (.found hspan hmain)
    | error cause => exact .inr (.inl (.located hspan))
  | @found world value span decl rest hspan hmain =>
    simp only [Machine.step, receive]
    split
    · rename_i cls
      cases hcontrol with
      | value _ hstack =>
        cases hstack with
        | superclass _ _ _ hflow => exact absurd hflow not_flowStack_prologue
      | found hvalue hsome hrest _ =>
        refine .inl
          (early_declareClass hground hrest hsome.symm (fun other hother => ?_) hmain)
        cases hother
        exact hvalue
    · exact .inr (.inl (.located hspan))
  | @enterMain world hmain =>
    cases hcontrol with
    | flow _ hstack => cases hstack
    | enterMain hbinds =>
      rcases locates_enterMain hbinds hmain with hlocates | hplaceless
      · exact .inr (.inl hlocates)
      · exact .inr (.inr ⟨rfl, rfl, hplaceless⟩)

/-! ## Runs -/

/-- The value of a call is there: an initializer finds its instance. -/
theorem yields_of_standing {m : Machine} (h : Standing plan origins acts m) :
    m.Yields := by
  intro function flow pending hflow hpending
  obtain ⟨world, control, pending'⟩ := m
  obtain ⟨hground, hcontrol⟩ := h
  cases hflow
  cases hpending
  cases hcontrol with
  | flow hvalue hstack =>
    cases hstack with
    | result hfunction _ =>
      obtain ⟨value, hresult, -⟩ := resultOf_ok hground hfunction hvalue
      exact ⟨value, hresult⟩

end Machine

/-- All code of a program, and whatever else there may be. -/
def Program.codeStock (program : Program) : Stock where
  code expr := expr ∈ program.parts
  capability _ := True
  ground := 0
  declares _ := True
  assigns _ := True
  fault := True
  failure := True

/-- The place of an expression of the program. -/
def Program.HasPlace (program : Program) (span : Span) : Prop :=
  ∃ expr ∈ program.parts, expr.span = span

namespace Machine

variable {program : Program} {natives : List Native} {ctx : Context} {m : Machine}

private theorem supplies_codeStock (program : Program) (natives : List Native) :
    program.codeStock.Supplies (.ofProgram (.start natives) program) := by
  have htask : program.codeStock.Supplies
      ((Task.run program).machine (.start natives)) := by
    refine .of_task (fun content hcontent => ?_) (Nat.zero_le _) ?_
    · obtain ⟨native, -, rfl⟩ := Heap.native_of_mem_contents_start hcontent
      exact ⟨fun _ hmem => absurd hmem not_mem_nil, fun _ _ => trivial,
        fun _ => trivial⟩
    · refine Stock.covers_flatMap.2 fun stmt hstmt =>
        Stock.covers_stmt.2 ⟨fun expr hexpr => ?_, ?_⟩
      · exact Stmt.parts_subset_listParts hstmt hexpr
      · exact fun _ _ _ => trivial
  exact htask

/-- The code that a state of a run is about to go through stands in the program. -/
theorem Reaches.hasPlace (h : Reaches ctx (.ofProgram (.start natives) program) m)
    {expr : Expr} (hexpr : .code expr ∈ m.control.contents) :
    program.HasPlace expr.span := by
  have hsuits : program.codeStock.Suits ctx :=
    ⟨fun _ => trivial, fun _ => trivial, fun _ _ _ _ _ _ _ _ => trivial,
      fun _ _ _ _ _ => trivial⟩
  have hsupplies :=
    Stock.Supplies.of_reaches hsuits (supplies_codeStock program natives) h
  exact ⟨expr, hsupplies.control _ hexpr, rfl⟩

/-- In every state of a run all errors get a place, or the entry point is still to be
called, or its call has failed itself. -/
private theorem Reaches.located (hagrees : Agrees program.sites ctx.resolution)
    (hformed : Stmt.listFormed program.stmts = true)
    (h : Reaches ctx (.ofProgram (.start natives) program) m) :
    Locates program.HasPlace m ∨ program.hasEntryPoint = true ∧
      (Early program.HasPlace m ∨ ∃ cause,
        EntryFails ctx (.ofProgram (.start natives) program) cause ∧
        Placeless cause m) := by
  induction h with
  | start =>
    unfold ofProgram
    by_cases hentry : program.hasEntryPoint = true
    · rw [if_pos hentry]
      exact .inr ⟨hentry, .inl (.next (Heap.mainDeclared_start natives))⟩
    · rw [if_neg hentry]
      exact .inl (.work rfl (.silent .nil rfl rfl))
  | @step m hreaches ih =>
    obtain ⟨own, hfollows⟩ := hreaches.follows
    obtain ⟨origins, htraced⟩ := hfollows.traced
    have hstanding := htraced.standing hagrees (.start hformed (.inr rfl))
    have hcode : ∀ expr, .code expr ∈ m.control.contents → program.HasPlace expr.span :=
      fun _ => hreaches.hasPlace
    rcases ih with hlocates | ⟨hentry, hearly | ⟨cause, hfails, hplaceless⟩⟩
    · refine .inl (hlocates.step hcode ?_)
      rcases hstanding with ⟨acts, hstanding⟩ | ⟨error, herror, -⟩
      · exact yields_of_standing hstanding
      · intro function flow pending hflow
        rw [herror] at hflow
        cases hflow
    · rcases hstanding with ⟨acts, hstanding⟩ | ⟨error, herror, -⟩
      · rcases @Early.step _ _ _ _ ctx _ hearly hstanding hcode with
          hearly | hlocates | ⟨hcontrol, hpending, cause, hcause, hplaceless⟩
        · exact .inr ⟨hentry, .inl hearly⟩
        · exact .inl hlocates
        · exact .inr ⟨hentry, .inr ⟨cause,
            ⟨hcause, m, hreaches, hcontrol, hpending, hplaceless.control⟩, hplaceless⟩⟩
      · cases hearly <;> cases herror
    · exact .inr ⟨hentry, .inr ⟨cause, hfails, hplaceless.step⟩⟩

end Machine

/-! ## Texts -/

/-- The parser blames one of the tokens, or their end. -/
theorem Parser.blames_of_parseFrom {p : Parser} {stop : Nat} {error : ParseError}
    (h : p.parseFrom stop tokens = (.error error, next)) :
    (∃ token ∈ tokens, error = .unexpectedToken token) ∨
      error = .unexpectedEnd ((tokens.getLast?.map (·.span.stop)).getD stop) := by
  induction tokens generalizing p stop with
  | nil =>
    unfold parseFrom at h
    split at h <;> cases h
    exact .inr rfl
  | cons token tokens ih =>
    unfold parseFrom at h
    split at h
    · rcases ih h with ⟨other, hother, rfl⟩ | rfl
      · exact .inl ⟨other, mem_cons_of_mem _ hother, rfl⟩
      · refine .inr ?_
        rw [List.getLast?_cons]
        cases tokens.getLast? <;> rfl
    · cases h
      exact .inl ⟨token, mem_cons_self, rfl⟩

/-- What is reported of a text that is not taken in, and where. -/
inductive ReadFails (source : String) : Error → Prop where
  | lexer {message : String} {span : Span} (within : span.Within source) :
      ReadFails source (.lexer message span)
  | token {tokens : List (Located Token)} {token : Located Token}
      (scanned : tokenize source = .ok tokens) (mem : token ∈ tokens)
      (within : token.span.Within source) :
      ReadFails source (.parser (ParseError.unexpectedToken token).message token.span)
  /-- The tokens end too early. -/
  | ended {tokens : List (Located Token)} {stop : Nat}
      (scanned : tokenize source = .ok tokens) (stops : stop = Grammar.stopOf tokens) :
      ReadFails source
        (.parser (ParseError.unexpectedEnd stop).message ⟨stop, stop + 1⟩)
  | superclass {tokens : List (Located Token)} {token : Located Token}
      {message : String} (scanned : tokenize source = .ok tokens) (mem : token ∈ tokens)
      (within : token.span.Within source) :
      ReadFails source (.resolve message token.span)

theorem readFails_of_parse {n : NodeId} {error : ParseError}
    (hscan : tokenize source = .ok tokens)
    (hparse : parse n tokens = (.error error, next)) :
    ReadFails source error.toError := by
  rcases Parser.blames_of_parseFrom hparse with ⟨token, htoken, rfl⟩ | rfl
  · exact .token hscan htoken ((spaced_of_tokenize hscan).within token htoken)
  · exact .ended hscan rfl

private theorem readFails_of_resolve {n : NodeId} {natives : String → Bool}
    {globals : List String} {error : ResolveError}
    (hscan : tokenize source = .ok tokens)
    (hparse : parse n tokens = (.ok program, next))
    (hresolve : program.resolve natives globals = .error error) :
    ReadFails source error.toError := by
  have hfault : Stmt.listFault? program.stmts = some error := by
    unfold Program.resolve at hresolve
    split at hresolve <;> cases hresolve
    assumption
  obtain ⟨token, htoken, hspan⟩ :=
    Grammar.Declarations.blames (derives_of_parse hparse) error hfault
  rw [ResolveError.toError, ← hspan]
  exact .superclass hscan htoken ((spaced_of_tokenize hscan).within token htoken)

/-- An error before the run, in any session. -/
theorem Session.readFails_of_prepare
    (h : session.prepare source = (session', .error error)) :
    ReadFails source error := by
  unfold prepare Source.read at h
  cases hscan : tokenize source with
  | error e =>
    simp only [hscan] at h
    cases h
    exact .lexer (within_of_tokenize_error hscan)
  | ok tokens =>
    simp only [hscan] at h
    cases hparse : parse session.nextId tokens with
    | mk result next =>
      simp only [hparse] at h
      cases result with
      | error e =>
        cases h
        exact readFails_of_parse hscan hparse
      | ok program =>
        simp only at h
        split at h
        · rename_i e hresolve
          cases h
          exact readFails_of_resolve hscan hparse hresolve
        · cases h

/-- Where an error of a text is reported. -/
inductive ErrorPlace (session : Session) (host : Host) (source : String) : Error →
  Prop where
  | lexer {message : String} {span : Span} (within : span.Within source) :
      ErrorPlace session host source (.lexer message span)
  | token {tokens : List (Located Token)} {token : Located Token}
      (scanned : tokenize source = .ok tokens) (mem : token ∈ tokens)
      (within : token.span.Within source) :
      ErrorPlace session host source
        (.parser (ParseError.unexpectedToken token).message token.span)
  /-- The tokens end too early. -/
  | ended {tokens : List (Located Token)} {stop : Nat}
      (scanned : tokenize source = .ok tokens) (stops : stop = Grammar.stopOf tokens) :
      ErrorPlace session host source
        (.parser (ParseError.unexpectedEnd stop).message ⟨stop, stop + 1⟩)
  | superclass {tokens : List (Located Token)} {token : Located Token}
      {message : String} (scanned : tokenize source = .ok tokens) (mem : token ∈ tokens)
      (within : token.span.Within source) :
      ErrorPlace session host source (.resolve message token.span)
  | expression {program : Program} {next : NodeId} {cause : Cause} {expr : Expr}
      (parsed : Source.read 0 source = (.ok program, next))
        (mem : expr ∈ program.parts) :
      ErrorPlace session host source (.runtime ⟨cause, some expr.span⟩)
  /-- The call of the entry point stands nowhere. -/
  | entryPoint {program : Program} {next : NodeId} {cause : Cause}
      (parsed : Source.read 0 source = (.ok program, next))
        (main : program.hasEntryPoint = true)
      (fails : Machine.EntryFails ((session.prepare source).1.context host)
        (.ofProgram session.heap program) cause) :
      ErrorPlace session host source (.runtime ⟨cause, none⟩)

namespace Session

variable {settings : RunSettings} {natives : List Native} {host : Host}
  {source : String}

private theorem errorPlace_of_prepare
    (h : (start settings natives).prepare source = (session, .error error)) :
    ErrorPlace (start settings natives) host source error := by
  cases readFails_of_prepare h with
  | lexer within => exact .lexer within
  | token scanned mem within => exact .token scanned mem within
  | ended scanned stops => exact .ended scanned stops
  | superclass scanned mem within => exact .superclass scanned mem within

private theorem errorPlace_of_perform {limit : Nat} {error : RuntimeError}
    {output : String}
    (hprepare : (start settings natives).prepare source = (session, .ok program))
    (hperform : session.perform limit host (.run program) =
      some (session', ⟨.error error, output⟩)) :
    ErrorPlace (start settings natives) host source (.runtime error) := by
  obtain ⟨next, -, hread, -, -⟩ := prepare_eq_ok_iff.1 hprepare
  obtain ⟨tokens, next', resolution, hparse, hresolve, hknown, hheap⟩ :=
    known_of_prepare hprepare
  have hagrees : Agrees program.sites session.resolution := by
    intro site hsite id name hrefers
    rw [(hknown id).1]
    exact agrees_of_resolve hparse hresolve site hsite id name hrefers
  simp only [perform, Task.machine, hheap] at hperform
  have hlocated := (Machine.Reaches.run (session.context host) limit
    (.ofProgram (.start natives) program)).located hagrees
      (derives_of_parse hparse).formed
  generalize (Machine.ofProgram (.start natives) program).run
    (session.context host) limit = m at hperform hlocated
  obtain ⟨world, control, pending⟩ := m
  obtain ⟨result, hresult, heq⟩ := Option.map_eq_some_iff.1 hperform
  obtain rfl : result = .error error := congrArg (fun done => done.2.result) heq
  obtain ⟨rfl, rfl⟩ : control = .fail error ∧ pending = [] := by
    unfold Machine.outcome? at hresult
    split at hresult <;> cases hresult
    rename_i hmachine
    cases hmachine
    exact ⟨rfl, rfl⟩
  rcases hlocated with hlocates | ⟨hentry, hearly | ⟨cause, hfails, hplaceless⟩⟩
  · obtain ⟨cause, span⟩ := error
    obtain ⟨span, rfl, expr, hexpr, rfl⟩ := hlocates.place_of_fail
    exact .expression hread hexpr
  · cases hearly
  · cases hplaceless.control
    refine .entryPoint hread hentry ?_
    rw [hprepare]
    exact hfails

/-- The places of errors. Whatever text a fresh session of known capabilities fails on:
an error of the scanner is at a part of the text, one of the parser at a token or right
after the last one, one of resolution at a token; an error of the run is at an
expression of the program, unless the call of the entry point itself has failed, for its
number of parameters or for the depth of calls. A program that runs as a script has no
such call. -/
theorem errors_have_places {settings : Settings} {session session' : Session}
    {limit : Nat} {error : Error} {output : String}
    (hsession : ofSettings settings = .ok session)
    (hsubmit : session.submit limit host Task.run source =
      some (session', .error error, output)) :
    ErrorPlace session host source error ∧
      ∀ program next, Source.read 0 source = (.ok program, next) →
        program.hasEntryPoint = false → ∃ span, error.span? = some span := by
  obtain ⟨natives, rfl⟩ : ∃ natives, session = start settings.run natives := by
    unfold ofSettings at hsession
    split at hsession <;> cases hsession
    exact ⟨_, rfl⟩
  have hplace : ErrorPlace (start settings.run natives) host source error := by
    unfold submit at hsubmit
    split at hsubmit
    · rename_i prepared e hprepare
      cases hsubmit
      exact errorPlace_of_prepare hprepare
    · rename_i prepared program hprepare
      obtain ⟨⟨session', ⟨result, output⟩⟩, hperform, heq⟩ :=
        Option.map_eq_some_iff.1 hsubmit
      cases result with
      | ok value => cases heq
      | error e =>
        cases heq
        exact errorPlace_of_perform hprepare hperform
  refine ⟨hplace, fun program next hread hentry => ?_⟩
  cases hplace with
  | entryPoint hread' hmain =>
    rw [hread] at hread'
    cases hread'
    rw [hentry] at hmain
    cases hmain
  | _ => exact ⟨_, rfl⟩

/-- The error of a text, with what it printed. -/
def failure? (done : Session × Except Error (Option Value) × String) :
    Option (Error × String) :=
  match done with
  | (_, .error error, output) => some (error, output)
  | (_, .ok _, _) => none

private theorem exists_of_failure? {limit : Nat} {task : Program → Task}
    {output : String}
    (h : (session.submit limit host task source).bind failure? = some (error, output)) :
    ∃ session', session.submit limit host task source =
      some (session', .error error, output) := by
  obtain ⟨⟨session', result, output'⟩, hsubmit, hfailure⟩ := Option.bind_eq_some_iff.1 h
  cases result with
  | ok value => cases hfailure
  | error e =>
    cases hfailure
    exact ⟨session', hsubmit⟩

/-- The class that is the entry point needs an argument. -/
def arityText : String :=
  "class main = { func init(x) = { } }"

/-- The error is inside an initializer, which the entry point calls. -/
def divisionText : String :=
  "class P = { func init(n) = { this.half = n / 0; } } func main() = { P(4); }"

theorem errors_have_places_main :
    let session := start Settings.default.run Native.all
    let arity : Error := .runtime ⟨.arity entryPoint 1 0, none⟩
    let division : Error := .runtime ⟨.divisionByZero, some ⟨41, 46⟩⟩
    (∃ session', session.submit 10 idleHost Task.run arityText =
        some (session', .error arity, "")) ∧
      ErrorPlace session idleHost arityText arity ∧
      (∃ session', session.submit 40 idleHost Task.run divisionText =
        some (session', .error division, "")) ∧
      ErrorPlace session idleHost divisionText division := by
  intro session arity division
  have hsession : ofSettings Settings.default = .ok session := rfl
  obtain ⟨first, hfirst⟩ := exists_of_failure?
    (show (session.submit 10 idleHost Task.run arityText).bind failure? =
      some (arity, "") by decide +kernel)
  obtain ⟨second, hsecond⟩ := exists_of_failure?
    (show (session.submit 40 idleHost Task.run divisionText).bind failure? =
      some (division, "") by
      decide +kernel)
  exact ⟨⟨first, hfirst⟩, (errors_have_places hsession hfirst).1, ⟨second, hsecond⟩,
    (errors_have_places hsession hsecond).1⟩

end Session

end Treewalk
