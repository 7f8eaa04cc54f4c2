import Treewalk.Proofs.Machine.Holdings
import Treewalk.Proofs.Scope.Trace

/-!
# Where code stands in a run

The invariant of a run relates every environment in it to a place of the program. An
environment has its place (`Place`) when its chain runs through one scope for every
region around the place, each made for what opened the region and binding all its names,
and then to the global scope. The code of a function value has a place in its closure,
and so has the code of every method of a class; the code that is under way or pending
has a place in the environment that it runs in.

Each call frame has an activation (`Act`): the environment and the regions of the code
that runs under it. The pending entries of one frame stand inside each other, from the
innermost block to the body of the function, and this is what the three predicates on
pending entries say: `ValueStack` waits for a value, `FlowStack` for the end of a
statement, and `Outside` is what follows the last statement of a body. A statement that
declares a name owes it to the statements after it.

All of it is kept when scopes are added, bindings are added and origins are appended
(`History.Extends`).
-/

namespace Treewalk

variable {env inner : ScopeId}

/-- The scope binds the name. -/
def Heap.Binds (heap : Heap) (scope : ScopeId) (name : String) : Prop :=
  (heap.bindings scope).has name = true

theorem Heap.chain_eq_cons {heap : Heap} (h : heap.chain env ≠ []) :
    ∃ outer, heap.chain env = env :: outer := by
  unfold chain at h ⊢
  split
  · exact ⟨_, rfl⟩
  · rename_i hnone
    simp [hnone] at h

/-- A heap with the origins of its scopes. -/
structure History where
  heap : Heap
  origins : List Origin

/-- What was seen before is still seen. -/
structure History.Extends (old new : History) : Prop where
  chain : ∀ env, old.heap.chain env ≠ [] → new.heap.chain env = old.heap.chain env
  binds : ∀ scope name, old.heap.Binds scope name → new.heap.Binds scope name
  origin : ∀ (scope : ScopeId) (origin : Origin),
    old.origins[scope]? = some origin → new.origins[scope]? = some origin

/-- Further origins take nothing away. -/
theorem History.Extends.append {old new : Heap} {origins : List Origin}
    (h : History.Extends ⟨old, origins⟩ ⟨new, origins⟩) (more : List Origin) :
    History.Extends ⟨old, origins⟩ ⟨new, origins ++ more⟩ where
  chain := h.chain
  binds := h.binds
  origin scope origin horigin := by
    have hlt : scope < origins.length := (List.getElem?_eq_some_iff.1 horigin).1
    show (origins ++ more)[scope]? = some origin
    rw [List.getElem?_append_left hlt]
    exact horigin

/-! ## Environments and places -/

/-- The scopes of a chain are those of the regions, around them the global scope. -/
def Fits (log : History) : Regions → List ScopeId → Prop
  | [], chain => chain = [globalScope]
  | _ :: _, [] => False
  | region :: outer, scope :: chain =>
    log.origins[scope]? = some region.origin ∧
      (∀ name ∈ region.names, log.heap.Binds scope name) ∧ Fits log outer chain

/-- Whether scopes of this origin hold what the program declares. -/
def Origin.isBody : Origin → Bool
  | block .. => true
  | call _ => true
  | _ => false

/-- Every name of a block or body is declared somewhere in it. -/
def Declared (plan : List Site) : Regions → Prop
  | [] => True
  | region :: outer =>
    (region.origin.isBody = true → ∀ name ∈ region.names, ∃ binder regions,
      ⟨.declare binder name, regions, false⟩ ∈ plan ∧
        Regions.origins regions = Regions.origins (region :: outer)) ∧
    Declared plan outer

/-- The environment belongs to a place with these regions. -/
structure Place (plan : List Site) (log : History) (env : ScopeId) (regions : Regions) :
  Prop where
  fits : Fits log regions (log.heap.chain env)
  declared : Declared plan regions

section Places

variable {plan : List Site} {log log' : History} {env : ScopeId} {regions : Regions}
  {chain : List ScopeId} {region : Region}

private theorem Fits.ne_nil (h : Fits log regions chain) : chain ≠ [] := by
  cases regions with
  | nil =>
    rw [Fits] at h
    simp [h]
  | cons region outer =>
    cases chain with
    | nil => exact h.elim
    | cons scope chain => simp

theorem Fits.length_eq (h : Fits log regions chain) :
    chain.length = regions.length + 1 := by
  induction regions generalizing chain with
  | nil =>
    rw [Fits] at h
    simp [h]
  | cons region outer ih =>
    cases chain with
    | nil => exact h.elim
    | cons scope chain => simpa using ih h.2.2

private theorem Fits.mono (h : Fits log regions chain) (e : log.Extends log') :
    Fits log' regions chain := by
  induction regions generalizing chain with
  | nil => exact h
  | cons region outer ih =>
    cases chain with
    | nil => exact h.elim
    | cons scope chain =>
      exact ⟨e.origin _ _ h.1, fun name hname =>
        e.binds _ _ (h.2.1 name hname), ih h.2.2⟩

/-- The scope at the position of a region was made for it and binds its names. -/
theorem Fits.getElem? (h : Fits log regions chain) {i : Nat}
    (hi : regions[i]? = some region) :
    ∃ scope, chain[i]? = some scope ∧ log.origins[scope]? = some region.origin ∧
      ∀ name ∈ region.names, log.heap.Binds scope name := by
  induction regions generalizing chain i with
  | nil => simp at hi
  | cons first outer ih =>
    cases chain with
    | nil => exact h.elim
    | cons scope chain =>
      cases i with
      | zero =>
        obtain rfl : first = region := by simpa using hi
        exact ⟨scope, rfl, h.1, h.2.1⟩
      | succ i => exact ih h.2.2 (by simpa using hi)

theorem Place.chain_ne_nil (h : Place plan log env regions) : log.heap.chain env ≠ [] :=
  h.fits.ne_nil

theorem Place.mono (h : Place plan log env regions) (e : log.Extends log') :
    Place plan log' env regions where
  fits := by
    rw [e.chain env h.chain_ne_nil]
    exact h.fits.mono e
  declared := h.declared

/-- A scope inside a place is the place of a region inside its regions. -/
theorem Place.inside (h : Place plan log env regions)
    (hchain : log.heap.chain inner = inner :: log.heap.chain env)
    (horigin : log.origins[inner]? = some region.origin)
    (hbinds : ∀ name ∈ region.names, log.heap.Binds inner name)
    (hdeclared : region.origin.isBody = true → ∀ name ∈ region.names, ∃ binder regions',
      ⟨.declare binder name, regions', false⟩ ∈ plan ∧
        Regions.origins regions' = Regions.origins (region :: regions)) :
    Place plan log inner (region :: regions) where
  fits := by
    rw [hchain]
    exact ⟨horigin, hbinds, h.fits⟩
  declared := ⟨hdeclared, h.declared⟩

/-- The environment around the innermost scope has the place around the innermost
region. -/
theorem Place.outside (h : Place plan log inner (region :: regions))
    (hchain : log.heap.chain inner = inner :: log.heap.chain env) :
    Place plan log env regions where
  fits := by
    have hfits := h.fits
    rw [hchain] at hfits
    exact hfits.2.2
  declared := h.declared.2

theorem Declared.declare {names : List String} (h : Declared plan regions)
    (hsites : ∀ name ∈ names, ∃ binder, ⟨.declare binder name, regions, false⟩ ∈ plan) :
    Declared plan (regions.declare names) := by
  cases regions with
  | nil => exact h
  | cons region outer =>
    refine ⟨fun hbody name hname => ?_, h.2⟩
    rcases List.mem_append.1 hname with hname | hname
    · obtain ⟨binder, hsite⟩ := hsites name hname
      exact ⟨binder, _, hsite, rfl⟩
    · exact h.1 hbody name hname

/-- Names that are declared at a place and bound there belong to its innermost
region. -/
theorem Place.declare {names : List String} (h : Place plan log env regions)
    (hbinds : ∀ name ∈ names, log.heap.Binds env name)
    (hsites : ∀ name ∈ names, ∃ binder, ⟨.declare binder name, regions, false⟩ ∈ plan) :
    Place plan log env (regions.declare names) := by
  cases regions with
  | nil => exact h
  | cons region outer =>
    obtain ⟨chain, hchain⟩ := Heap.chain_eq_cons h.chain_ne_nil
    have hfits := h.fits
    rw [hchain] at hfits
    constructor
    · rw [hchain]
      refine ⟨hfits.1, fun name hname => ?_, hfits.2.2⟩
      rcases List.mem_append.1 hname with hname | hname
      · exact hbinds name hname
      · exact hfits.2.1 name hname
    · exact h.declared.declare hsites

end Places

/-! ## Values -/

section Values

variable (plan : List Site) (log : History)

/-- The body of the function stands in its closure; an initializer has a receiver
there. -/
def FunctionOk (function : Function) : Prop :=
  ∃ regions, Place plan log function.closure regions ∧
    function.decl.sites regions ⊆ plan ∧ function.decl.formed = true ∧
    (function.isInit = true → log.heap.Binds function.closure "this")

/-- The body of the method stands in a scope for its receiver inside its closure. -/
def MethodOk (method : Function) : Prop :=
  ∃ regions, Place plan log method.closure regions ∧
    method.decl.sites (⟨.receiver method.decl, ["this"]⟩ :: regions) ⊆ plan ∧
    method.decl.formed = true

/-- Every method that the class finds has its place. -/
def ClassOk (cls : Class) : Prop :=
  ∀ name method, cls.findMethod? name = some method → MethodOk plan log method

/-- All code in the value has its place. -/
def ValueOk : Value → Prop
  | .callable (.function function) => FunctionOk plan log function
  | .callable (.cls cls) => ClassOk plan log cls
  | .cls cls => ClassOk plan log cls
  | .inst inst => ClassOk plan log inst.cls
  | _ => True

end Values

section Values

variable {plan : List Site} {log log' : History}

theorem FunctionOk.mono {function : Function} (h : FunctionOk plan log function)
    (e : log.Extends log') : FunctionOk plan log' function := by
  obtain ⟨regions, hplace, hsites, hformed, hinit⟩ := h
  exact ⟨regions, hplace.mono e, hsites, hformed, fun hi => e.binds _ _ (hinit hi)⟩

theorem MethodOk.mono {method : Function} (h : MethodOk plan log method)
    (e : log.Extends log') :
    MethodOk plan log' method := by
  obtain ⟨regions, hplace, hsites, hformed⟩ := h
  exact ⟨regions, hplace.mono e, hsites, hformed⟩

theorem ClassOk.mono {cls : Class} (h : ClassOk plan log cls) (e : log.Extends log') :
    ClassOk plan log' cls :=
  fun name method hmethod => (h name method hmethod).mono e

theorem ValueOk.mono {value : Value} (h : ValueOk plan log value)
    (e : log.Extends log') :
    ValueOk plan log' value := by
  cases value with
  | callable callable =>
    cases callable with
    | function function => exact FunctionOk.mono h e
    | cls cls => exact ClassOk.mono h e
    | native native => trivial
  | cls cls => exact ClassOk.mono h e
  | inst inst => exact ClassOk.mono h e
  | _ => trivial

/-- A value that holds no code. -/
theorem ValueOk.of_isComparable {value : Value} (h : value.isComparable = true) :
    ValueOk plan log value := by
  cases value with
  | callable callable => cases h
  | cls cls => cases h
  | inst inst => cases h
  | _ => trivial

end Values

/-! ## Pending entries -/

/-- The code that runs under a call frame: its environment, the regions around it, and
whether it is an argument of the call that the frame is for. -/
structure Act where
  env : ScopeId
  regions : Regions
  inArguments : Bool

/-- Some call of the program has these arguments. -/
def Called (plan : List Site) (args : List Expr) : Prop :=
  ∃ id regions inArguments, ⟨.call id args, regions, inArguments⟩ ∈ plan

/-- The first scope was made inside the second one. -/
def Heap.Inside (heap : Heap) (inner env : ScopeId) : Prop :=
  heap.chain inner = inner :: heap.chain env ∧ heap.chain env ≠ []

section Stacks

variable (plan : List Site) (log : History)

/-- What a call is for has its place. -/
def CalleeOk (call : Call) (regions : Regions) : Prop :=
  match call.callee with
  | .found callee => ValueOk plan log callee
  | .native => True
  | .named _ id => ∃ inArguments, ⟨.read id call.name, regions, inArguments⟩ ∈ plan

/-- A body of `if` or `while` that stands in these regions. -/
structure BlockOk (regions : Regions) (stmt : Stmt) : Prop where
  sites : stmt.sites regions ⊆ plan
  formed : stmt.formed = true
  declared : stmt.declared = []

mutual

/-- The entries wait for a value of code that runs under the first activation. -/
inductive ValueStack : List Act → List Pending → Prop
  | done {act} : ValueStack [act] []
  | assign {act acts span id name pending} :
      ⟨.write id name, act.regions, act.inArguments⟩ ∈ plan →
        ValueStack (act :: acts) pending →
      ValueStack (act :: acts) (.assign span id name act.env :: pending)
  | binaryLeft {act acts span op right pending} :
      right.sites act.regions act.inArguments ⊆ plan →
        ValueStack (act :: acts) pending →
      ValueStack (act :: acts) (.binaryLeft span op right act.env :: pending)
  | binaryRight {acts span left op pending} : ValueStack acts pending →
      ValueStack acts (.binaryRight span left op :: pending)
  | logical {act acts op right pending} :
      right.sites act.regions act.inArguments ⊆ plan →
        ValueStack (act :: acts) pending →
      ValueStack (act :: acts) (.logical op right act.env :: pending)
  | unary {acts span op pending} : ValueStack acts pending →
      ValueStack acts (.unary span op :: pending)
  | get {acts span name pending} : ValueStack acts pending →
      ValueStack acts (.get span name :: pending)
  | setObject {act acts span name value pending} :
      value.sites act.regions act.inArguments ⊆ plan →
        ValueStack (act :: acts) pending →
      ValueStack (act :: acts) (.setObject span name value act.env :: pending)
  | setField {acts inst name pending} : ValueStack acts pending →
      ValueStack acts (.setField inst name :: pending)
  | receiver {act acts span access name args pending} :
      Expr.argumentSites act.regions args ⊆ plan → Called plan args →
      ValueStack (act :: acts) pending →
      ValueStack (act :: acts) (.receiver span access name args act.env :: pending)
  | argument {env regions inArguments acts call done current rest span pending} :
      call.env = env → CalleeOk plan log call regions →
      (∀ arg ∈ done, ValueOk plan log arg.2) → Expr.argumentSites regions rest ⊆ plan →
      Called plan (done.reverse.map (·.1) ++ current :: rest) →
      ValueStack (⟨env, regions, inArguments⟩ :: acts) pending →
      ValueStack (⟨env, regions, true⟩ :: ⟨env, regions, inArguments⟩ :: acts)
        (.argument call done current rest :: .leave span :: pending)
  | leave {act acts span pending} : ValueStack acts pending →
      ValueStack (act :: acts) (.leave span :: pending)
  | construct {acts inst pending} : ValueOk plan log (.inst inst) →
      ValueStack acts pending → ValueStack acts (.construct inst :: pending)
  | declare {env regions acts name pending} :
      ⟨.declare .var name, regions, false⟩ ∈ plan →
      FlowStack (⟨env, regions, false⟩ :: acts) [name] pending →
      ValueStack (⟨env, regions, false⟩ :: acts) (.declare name env :: pending)
  | branch {env regions acts onTrue onFalse pending} : BlockOk plan regions onTrue →
      (∀ stmt, onFalse = some stmt → BlockOk plan regions stmt) →
      FlowStack (⟨env, regions, false⟩ :: acts) [] pending →
      ValueStack (⟨env, regions, false⟩ :: acts) (.branch onTrue onFalse env :: pending)
  | loopTest {env regions acts cond body pending} : cond.sites regions false ⊆ plan →
      BlockOk plan regions body → FlowStack (⟨env, regions, false⟩ :: acts) [] pending →
      ValueStack (⟨env, regions, false⟩ :: acts) (.loopTest cond body env :: pending)
  | print {acts newline pending} : FlowStack acts [] pending →
      ValueStack acts (.print newline :: pending)
  | ret {acts pending} : FlowStack acts [] pending → ValueStack acts (.ret :: pending)
  | discard {acts pending} : FlowStack acts [] pending →
      ValueStack acts (.discard :: pending)
  | superclass {env regions acts span decl pending} : decl.sites regions ⊆ plan →
      decl.formed = true → decl.superclass.isSome = true →
      FlowStack (⟨env, regions, false⟩ :: acts) [decl.name.node] pending →
      ValueStack (⟨env, regions, false⟩ :: acts) (.superclass span decl env :: pending)

/-- The entries wait for the end of a statement that runs under the first activation and
owes them the names. -/
inductive FlowStack : List Act → List String → List Pending → Prop
  | done {act owed} : FlowStack [act] owed []
  | seq {env regions acts owed rest pending} :
      Stmt.listSites (regions.declare owed) rest ⊆ plan → Stmt.listFormed rest = true →
      Outside (⟨env, regions, false⟩ :: acts) pending →
      FlowStack (⟨env, regions, false⟩ :: acts) owed (.seq rest env :: pending)
  | loopBody {env regions acts cond body pending} : cond.sites regions false ⊆ plan →
      BlockOk plan regions body → FlowStack (⟨env, regions, false⟩ :: acts) [] pending →
      FlowStack (⟨env, regions, false⟩ :: acts) [] (.loopBody cond body env :: pending)
  | result {act acts owed function pending} : FunctionOk plan log function →
      (∀ act, ValueStack (act :: acts) pending) →
      FlowStack (act :: acts) owed (.result function :: pending)

/-- The entries follow the last statement of a body that runs under the first
activation. -/
inductive Outside : List Act → List Pending → Prop
  | block {env outer regions acts span body names pending} : log.heap.Inside env outer →
      FlowStack (⟨outer, regions, false⟩ :: acts) [] pending →
      Outside (⟨env, ⟨.block span body, names⟩ :: regions, false⟩ :: acts) pending
  | body {env regions acts decl names function pending} : FunctionOk plan log function →
      (∀ act, ValueStack (act :: acts) pending) →
      Outside (⟨env, ⟨.call decl, names⟩ :: regions, false⟩ :: acts)
        (.result function :: pending)
  | script : Outside [⟨globalScope, [], false⟩] []

end

end Stacks

section Stacks

variable {plan : List Site} {log log' : History}

private theorem Heap.Inside.mono (h : log.heap.Inside inner env)
    (e : log.Extends log') : log'.heap.Inside inner env := by
  have hinner : log'.heap.chain inner = log.heap.chain inner :=
    e.chain inner (by simp [h.1])
  have henv : log'.heap.chain env = log.heap.chain env := e.chain env h.2
  exact ⟨by rw [hinner, henv, h.1], henv ▸ h.2⟩

private theorem CalleeOk.mono {call : Call} {regions : Regions}
    (h : CalleeOk plan log call regions) (e : log.Extends log') :
    CalleeOk plan log' call regions := by
  unfold CalleeOk at h ⊢
  split at h
  · exact h.mono e
  · trivial
  · exact h

mutual

theorem ValueStack.mono {acts : List Act} {pending : List Pending}
    (e : log.Extends log') :
    ValueStack plan log acts pending → ValueStack plan log' acts pending
  | .done => .done
  | .assign hsite h => .assign hsite (h.mono e)
  | .binaryLeft hsites h => .binaryLeft hsites (h.mono e)
  | .binaryRight h => .binaryRight (h.mono e)
  | .logical hsites h => .logical hsites (h.mono e)
  | .unary h => .unary (h.mono e)
  | .get h => .get (h.mono e)
  | .setObject hsites h => .setObject hsites (h.mono e)
  | .setField h => .setField (h.mono e)
  | .receiver hsites hcalled h => .receiver hsites hcalled (h.mono e)
  | .argument henv hcallee hdone hsites hcalled h =>
    .argument henv (hcallee.mono e) (fun arg harg => (hdone arg harg).mono e)
      hsites hcalled (h.mono e)
  | .leave h => .leave (h.mono e)
  | .construct hinst h => .construct (hinst.mono e) (h.mono e)
  | .declare hsite h => .declare hsite (h.mono e)
  | .branch htrue hfalse h => .branch htrue hfalse (h.mono e)
  | .loopTest hcond hbody h => .loopTest hcond hbody (h.mono e)
  | .print h => .print (h.mono e)
  | .ret h => .ret (h.mono e)
  | .discard h => .discard (h.mono e)
  | .superclass hsites hformed hsome h => .superclass hsites hformed hsome (h.mono e)

theorem FlowStack.mono {acts : List Act} {owed : List String} {pending : List Pending}
    (e : log.Extends log') :
    FlowStack plan log acts owed pending → FlowStack plan log' acts owed pending
  | .done => .done
  | .seq hsites hformed h => .seq hsites hformed (h.mono e)
  | .loopBody hcond hbody h => .loopBody hcond hbody (h.mono e)
  | .result hfunction h => .result (hfunction.mono e) fun act => (h act).mono e

private theorem Outside.mono {acts : List Act} {pending : List Pending}
    (e : log.Extends log') :
    Outside plan log acts pending → Outside plan log' acts pending
  | .block hinside h => .block (hinside.mono e) (h.mono e)
  | .body hfunction h => .body (hfunction.mono e) fun act => (h act).mono e
  | .script => .script

end

/-- Once the owed names are in the innermost region, nothing is owed. -/
theorem FlowStack.pay {regions : Regions} {acts : List Act} {owed : List String}
    {pending : List Pending}
    (h : FlowStack plan log (⟨env, regions, false⟩ :: acts) owed pending) :
    FlowStack plan log (⟨env, regions.declare owed, false⟩ :: acts) [] pending := by
  cases h with
  | done => exact .done
  | seq hsites hformed h =>
    refine .seq (by rwa [Regions.declare_nil]) hformed ?_
    cases h with
    | block hinside h => exact .block hinside h
    | body hfunction h => exact .body hfunction h
    | script => exact .script
  | loopBody hcond hbody h =>
    rw [Regions.declare_nil]
    exact .loopBody hcond hbody h
  | result hfunction h => exact .result hfunction h

end Stacks

/-! ## States -/

section States

variable (plan : List Site)

/-- The values of a world have their places, and its activations those of their
frames. -/
structure Ground (origins : List Origin) (acts : List Act) (world : World) : Prop where
  size : origins.length = world.heap.scopes.size
  root : world.heap.chain globalScope = [globalScope]
  globals : origins[globalScope]? = some .globals
  values : world.Holds (ValueOk plan ⟨world.heap, origins⟩)
  places : ∀ act ∈ acts, Place plan ⟨world.heap, origins⟩ act.env act.regions
  depth : world.frames.list.length = acts.length

/-- The entry point is bound, or one of the declarations to come declares it. -/
def MainAhead (log : History) (rest : List Stmt) : Prop :=
  log.heap.Binds globalScope entryPoint ∨ ∃ stmt ∈ rest, entryPoint ∈ stmt.declared

/-- Declarations at the top level of the program. -/
structure DeclarationsOk (rest : List Stmt) : Prop where
  sites : Stmt.listSites [] rest ⊆ plan
  formed : Stmt.listFormed rest = true
  declarations : ∀ stmt ∈ rest, stmt.isDeclaration = true

/-- What the machine is about to do stands where the first activation says. Before the
entry point is called only declarations are executed, and these cannot end otherwise
than normally. -/
inductive ControlOk (log : History) : List Act → Control → List Pending → Prop
  | eval {act acts expr pending} : expr.sites act.regions act.inArguments ⊆ plan →
      ValueStack plan log (act :: acts) pending →
      ControlOk log (act :: acts) (.eval expr act.env) pending
  | exec {env regions acts stmt pending} : stmt.sites regions ⊆ plan →
      stmt.formed = true →
      FlowStack plan log (⟨env, regions, false⟩ :: acts) stmt.declared pending →
      ControlOk log (⟨env, regions, false⟩ :: acts) (.exec stmt env) pending
  | native {acts name args pending} : ValueStack plan log acts pending →
      ControlOk log acts (.native name args) pending
  | value {acts value pending} : ValueOk plan log value →
      ValueStack plan log acts pending → ControlOk log acts (.value value) pending
  | flow {acts flow pending} : (∀ value, flow = .ret value → ValueOk plan log value) →
      FlowStack plan log acts [] pending → ControlOk log acts (.flow flow) pending
  /-- The next declaration before the entry point. -/
  | next {rest} : DeclarationsOk plan rest → MainAhead log rest →
      ControlOk log [⟨globalScope, [], false⟩] (.flow .normal)
        [.seq rest globalScope, .enterMain]
  | declaration {stmt rest} : DeclarationsOk plan (stmt :: rest) →
      MainAhead log (stmt :: rest) →
      ControlOk log [⟨globalScope, [], false⟩] (.exec stmt globalScope)
        [.seq rest globalScope, .enterMain]
  /-- The superclass of a class before the entry point. -/
  | lookup {span id name place decl rest} : ⟨.read id name, [], false⟩ ∈ plan →
      decl.superclass.isSome = true →
        DeclarationsOk plan (.classDecl place decl :: rest) →
      MainAhead log (.classDecl place decl :: rest) →
      ControlOk log [⟨globalScope, [], false⟩] (.eval (.var span id name) globalScope)
        [.superclass span decl globalScope, .seq rest globalScope, .enterMain]
  | found {value span place decl rest} : ValueOk plan log value →
      decl.superclass.isSome = true →
        DeclarationsOk plan (.classDecl place decl :: rest) →
      MainAhead log (.classDecl place decl :: rest) →
      ControlOk log [⟨globalScope, [], false⟩] (.value value)
        [.superclass span decl globalScope, .seq rest globalScope, .enterMain]
  | enterMain : log.heap.Binds globalScope entryPoint →
      ControlOk log [⟨globalScope, [], false⟩] (.flow .normal) [.enterMain]

/-- A state in which all code has its place. -/
structure Standing (origins : List Origin) (acts : List Act) (m : Machine) : Prop where
  ground : Ground plan origins acts m.world
  control : ControlOk plan ⟨m.world.heap, origins⟩ acts m.control m.pending

end States

section States

variable {plan : List Site} {log : History} {acts : List Act} {pending : List Pending}

/-- A statement that ends normally hands on no value. -/
theorem ControlOk.normal (h : FlowStack plan log acts [] pending) :
    ControlOk plan log acts (.flow .normal) pending :=
  .flow (fun _ hret => by cases hret) h

theorem ControlOk.evalIn {regions : Regions} {inArguments : Bool} {expr : Expr}
    (hsites : expr.sites regions inArguments ⊆ plan)
    (h : ValueStack plan log (⟨env, regions, inArguments⟩ :: acts) pending) :
    ControlOk plan log (⟨env, regions, inArguments⟩ :: acts) (.eval expr env) pending :=
  @ControlOk.eval plan log ⟨env, regions, inArguments⟩ acts expr pending hsites h

end States

section Prologue

variable {plan : List Site} {log log' : History} {stmt : Stmt} {rest : List Stmt}

theorem MainAhead.mono (h : MainAhead log rest) (e : log.Extends log') :
    MainAhead log' rest :=
  h.imp_left (e.binds _ _)

/-- A declaration that was made need not be waited for. -/
theorem MainAhead.tail (h : MainAhead log (stmt :: rest))
    (hbinds : ∀ name ∈ stmt.declared, log.heap.Binds globalScope name) :
    MainAhead log rest := by
  rcases h with h | ⟨found, hmem, hname⟩
  · exact .inl h
  · rcases List.mem_cons.1 hmem with rfl | hrest
    · exact .inl (hbinds _ hname)
    · exact .inr ⟨found, hrest, hname⟩

theorem DeclarationsOk.tail (h : DeclarationsOk plan (stmt :: rest)) :
    DeclarationsOk plan rest := by
  obtain ⟨hsites, hformed, hdeclarations⟩ := h
  simp only [Stmt.listSites, List.append_subset, Regions.declare] at hsites
  simp only [Stmt.listFormed, Bool.and_eq_true] at hformed
  exact ⟨hsites.2, hformed.2, fun stmt hstmt =>
    hdeclarations stmt (List.mem_cons_of_mem _ hstmt)⟩

theorem DeclarationsOk.head (h : DeclarationsOk plan (stmt :: rest)) :
    stmt.sites [] ⊆ plan ∧ stmt.formed = true := by
  obtain ⟨hsites, hformed, -⟩ := h
  simp only [Stmt.listSites, List.append_subset] at hsites
  simp only [Stmt.listFormed, Bool.and_eq_true] at hformed
  exact ⟨hsites.1, hformed.1⟩

end Prologue

end Treewalk
