import Treewalk.Tree.Json

/-!
# Reading what was written

A tree fits if its numbers are in range: node numbers 32-bit, offsets 64-bit
(`Program.fits`). What is read always fits, and a tree that fits is read back from what
is written for it, whatever its depth. So reading and writing in turn gives one normal
form of a value: absent parts are written as `null`, unknown fields are gone, and a bare
alternative is its name alone.

* `Program.ofJson?_toJson` — a program that fits is read back.
* `Program.fits_of_ofJson?` — a program that is read fits.
* `read_write_stable` — so writing after reading changes nothing the second time.
-/

namespace Treewalk

open List

variable {stmts : List Stmt} {α : Type} {j : Json} {span : Span} {items : List Json}
  {expr : Expr} {fuel : Nat} {read : Json → Option Stmt} {stmt : Stmt}
  {fields : List (String × Json)} {expr? : Option Expr} {decl : FunctionDecl}
  {program : Program}

/-! ## Numbers in range -/

/-- The offsets are 64-bit numbers. -/
def Span.fits (span : Span) : Bool :=
  span.start < 0x10000000000000000 && span.stop < 0x10000000000000000

/-- The number is a 32-bit number. -/
def NodeId.fits (id : NodeId) : Bool :=
  id < 0x100000000

namespace Expr

mutual

/-- All numbers in the expression are in range. -/
def fits : Expr → Bool
  | assign span id _ value => span.fits && NodeId.fits id && value.fits
  | binary span left _ right => span.fits && left.fits && right.fits
  | call span id callee args =>
    span.fits && NodeId.fits id && callee.fits && listFits args
  | get span object name => span.fits && object.fits && name.span.fits
  | grouping span inner => span.fits && inner.fits
  | literal span _ => span.fits
  | logical span left _ right => span.fits && left.fits && right.fits
  | set span object name value =>
    span.fits && object.fits && name.span.fits && value.fits
  | super span method => span.fits && method.span.fits
  | this span => span.fits
  | unary span _ operand => span.fits && operand.fits
  | var span id _ => span.fits && NodeId.fits id

/-- All numbers in the expressions are in range. -/
def listFits : List Expr → Bool
  | [] => true
  | expr :: rest => expr.fits && listFits rest

end

end Expr

mutual

/-- All numbers in the statement are in range. -/
def Stmt.fits : Stmt → Bool
  | .block span body => span.fits && Stmt.listFits body
  | .funcDecl span decl => span.fits && decl.fits
  | .classDecl span decl => span.fits && decl.fits
  | .branch span cond onTrue onFalse =>
    span.fits && cond.fits && onTrue.fits && Stmt.optionFits onFalse
  | .print span _ operand => span.fits && operand.all Expr.fits
  | .ret span operand => span.fits && operand.all Expr.fits
  | .brk span => span.fits
  | .var span name init => span.fits && name.span.fits && init.all Expr.fits
  | .loop span cond body => span.fits && cond.fits && body.fits
  | .expression span expr => span.fits && expr.fits

/-- All numbers in the statements are in range. -/
def Stmt.listFits : List Stmt → Bool
  | [] => true
  | stmt :: rest => stmt.fits && Stmt.listFits rest

/-- All numbers in the statement, if there is one, are in range. -/
def Stmt.optionFits : Option Stmt → Bool
  | some stmt => stmt.fits
  | none => true

/-- All numbers in the function are in range. -/
def FunctionDecl.fits : FunctionDecl → Bool
  | .mk name params body span =>
    name.span.fits && params.all (·.span.fits) && Stmt.listFits body && span.fits

/-- All numbers in the functions are in range. -/
def FunctionDecl.listFits : List FunctionDecl → Bool
  | [] => true
  | decl :: rest => decl.fits && FunctionDecl.listFits rest

/-- All numbers in the class are in range. -/
def ClassDecl.fits : ClassDecl → Bool
  | .mk name superclass methods span =>
    name.span.fits && superclass.all Expr.fits && FunctionDecl.listFits
      methods && span.fits

end

/-- All numbers in the program are in range. -/
def Program.fits (program : Program) : Bool :=
  Stmt.listFits program.stmts

private theorem Expr.listFits_iff {exprs : List Expr} :
    Expr.listFits exprs = true ↔ ∀ expr ∈ exprs, expr.fits = true := by
  induction exprs with
  | nil => simp [Expr.listFits]
  | cons expr rest ih => simp [Expr.listFits, ih]

private theorem Stmt.listFits_iff :
    Stmt.listFits stmts = true ↔ ∀ stmt ∈ stmts, stmt.fits = true := by
  induction stmts with
  | nil => simp [Stmt.listFits]
  | cons stmt rest ih => simp [Stmt.listFits, ih]

private theorem FunctionDecl.listFits_iff {decls : List FunctionDecl} :
    FunctionDecl.listFits decls = true ↔ ∀ decl ∈ decls, decl.fits = true := by
  induction decls with
  | nil => simp [FunctionDecl.listFits]
  | cons decl rest ih => simp [FunctionDecl.listFits, ih]

private theorem Expr.listToJson_eq_map (exprs : List Expr) :
    Expr.listToJson exprs = exprs.map Expr.toJson := by
  induction exprs with
  | nil => rfl
  | cons expr rest ih => rw [Expr.listToJson, ih, map_cons]

private theorem Stmt.listToJson_eq_map (stmts : List Stmt) :
    Stmt.listToJson stmts = stmts.map Stmt.toJson := by
  induction stmts with
  | nil => rfl
  | cons stmt rest ih => rw [Stmt.listToJson, ih, map_cons]

private theorem FunctionDecl.listToJson_eq_map (decls : List FunctionDecl) :
    FunctionDecl.listToJson decls = decls.map FunctionDecl.toJson := by
  induction decls with
  | nil => rfl
  | cons decl rest ih => rw [FunctionDecl.listToJson, ih, map_cons]

/-! ## Reading the small parts back -/

namespace Json

private theorem intIn?_int {low high n : Int} (hlow : low ≤ n) (hhigh : n < high) :
    (int n).intIn? low high = some n :=
  if_pos ⟨hlow, hhigh⟩

private theorem offset?_int {n : Nat} (h : n < 0x10000000000000000) :
    (int n).offset? = some n := by
  rw [offset?, intIn?_int (Int.natCast_nonneg n) (by omega)]
  rfl

theorem nodeId?_int {id : NodeId} (h : NodeId.fits id = true) :
    (int id).nodeId? = some id := by
  have hlt : (id : Int) < 0x100000000 := Int.ofNat_lt.2 (of_decide_eq_true h)
  rw [nodeId?, intIn?_int (Int.natCast_nonneg id) hlt]
  rfl

private theorem mapM_map {write : α → Json} {read : Json → Option α} {items : List α}
    (h : ∀ a ∈ items, read (write a) = some a) :
    (items.map write).mapM read = some items := by
  induction items with
  | nil => rfl
  | cons a rest ih =>
    obtain ⟨ha, hrest⟩ := forall_mem_cons.1 h
    rw [map_cons, mapM_cons, ha, ih hrest]
    rfl

theorem optional?_some {read : Json → Option α} (h : j ≠ null) :
    optional? read (some j) = (read j).map some := by
  cases j <;> first | rfl | exact absurd rfl h

/-- What may be absent is read back, if nothing that is present is written as `null`. -/
theorem optional?_ofOption {write : α → Json} {read : Json → Option α} {a? : Option α}
    (hnull : ∀ a, write a ≠ null) (h : ∀ a ∈ a?, read (write a) = some a) :
    optional? read (some (ofOption write a?)) = some a? := by
  cases a? with
  | none => rfl
  | some a => rw [ofOption, optional?_some (hnull a), h a rfl, Option.map_some]

private theorem span_ofJson?_toJson (h : span.fits = true) :
    Span.ofJson? span.toJson = some span := by
  simp only [Span.fits, Bool.and_eq_true, decide_eq_true_eq] at h
  simp [Span.ofJson?, Span.toJson, record?, fields?, field?, offset?_int h.1,
    offset?_int h.2]

private theorem located?_located (read : Span → Json → Option α) (node : Json)
    (h : span.fits = true) :
    located? read (located node span) = read span node := by
  simp [located?, located, record?, fields?, field?, span_ofJson?_toJson h]

theorem name_ofJson?_toJson {name : Name} (h : name.span.fits = true) :
    Name.ofJson? name.toJson = some name := by
  rw [Name.ofJson?, Name.toJson, located?_located _ _ h]
  rfl

end Json

private theorem BinaryOp.ofJson?_label (op : BinaryOp) :
    BinaryOp.ofJson? (.string op.label) = some op := by
  cases op <;> rfl

private theorem LogicalOp.ofJson?_label (op : LogicalOp) :
    LogicalOp.ofJson? (.string op.label) = some op := by
  cases op <;> rfl

theorem UnaryOp.ofJson?_label (op : UnaryOp) :
    UnaryOp.ofJson? (.string op.label) = some op := by
  cases op <;> rfl

private theorem Literal.ofJson?_toJson (literal : Literal) :
    Literal.ofJson? literal.toJson = some literal := by
  cases literal with
  | number n =>
    have hn : Json.intIn? (-0x8000000000000000) 0x8000000000000000 (.int n.toInt) =
        some n.toInt :=
      Json.intIn?_int n.le_toInt n.toInt_lt
    simp [Literal.ofJson?, Literal.toJson, Json.tagged?, hn]
  | _ => rfl

/-! ## Depths -/

namespace Json

theorem depth_lt_item {item : Json} (h : item ∈ items) :
    item.depth < (array items).depth := by
  rw [depth, Nat.lt_succ_iff]
  induction items with
  | nil => cases h
  | cons first rest ih =>
    rw [depthItems]
    rcases mem_cons.1 h with rfl | h
    · exact Nat.le_max_left _ _
    · exact Nat.le_trans (ih h) (Nat.le_max_right _ _)

theorem depth_lt_field {value : Json} (h : value ∈ fields.map (·.2)) :
    value.depth < (object fields).depth := by
  rw [depth, Nat.lt_succ_iff]
  induction fields with
  | nil => cases h
  | cons first rest ih =>
    rw [depthFields]
    rcases mem_cons.1 h with rfl | h
    · exact Nat.le_max_left _ _
    · exact Nat.le_trans (ih h) (Nat.le_max_right _ _)

/-- What an alternative carries is less deep than its node. -/
theorem depth_lt_located {tag : String} {payload : Json} :
    payload.depth < (located (object [(tag, payload)]) span).depth :=
  Nat.lt_trans (depth_lt_field mem_cons_self) (depth_lt_field mem_cons_self)

private theorem depth_lt_located_field {tag : String} {value : Json}
    (h : value ∈ fields.map (·.2)) :
    value.depth < (located (object [(tag, object fields)]) span).depth :=
  Nat.lt_trans (depth_lt_field h) depth_lt_located

end Json

/-! ## Expressions -/

open Json

namespace Expr

section Nodes

/-! An alternative is read part by part. -/

variable {read : Json → Option Expr} {span : Span} {i n v w : Json} {name : String}

private theorem ofNode?_assign :
    ofNode? read span
      (.object
        [("Assign", .object [("id", i), ("name", .string name), ("value", v)])]) =
        do return assign span (← i.nodeId?) name (← read v) :=
  rfl

private theorem ofNode?_binary :
    ofNode? read span
      (.object [("Binary", .object [("left", v), ("op", n), ("right", w)])]) =
      do return binary span (← read v) (← BinaryOp.ofJson? n) (← read w) :=
  rfl

private theorem ofNode?_call :
    ofNode? read span
      (.object [("Call", .object [("id", i), ("callee", v), ("args", .array items)])]) =
      do return call span (← i.nodeId?) (← read v) (← items.mapM read) :=
  rfl

private theorem ofNode?_get :
    ofNode? read span (.object [("Get", .object [("object", v), ("name", n)])]) =
      do return get span (← read v) (← Name.ofJson? n) :=
  rfl

private theorem ofNode?_grouping :
    ofNode? read span (.object [("Grouping", v)]) =
      do return grouping span (← read v) :=
  rfl

private theorem ofNode?_literal :
    ofNode? read span (.object [("Literal", v)]) =
      do return literal span (← Literal.ofJson? v) :=
  rfl

private theorem ofNode?_logical :
    ofNode? read span
      (.object [("Logical", .object [("left", v), ("op", n), ("right", w)])]) =
      do return logical span (← read v) (← LogicalOp.ofJson? n) (← read w) :=
  rfl

private theorem ofNode?_set :
    ofNode? read span
      (.object [("Set", .object [("object", v), ("name", n), ("value", w)])]) =
      do return set span (← read v) (← Name.ofJson? n) (← read w) :=
  rfl

private theorem ofNode?_super :
    ofNode? read span (.object [("Super", .object [("method", n)])]) =
      do return super span (← Name.ofJson? n) :=
  rfl

private theorem ofNode?_unary :
    ofNode? read span (.object [("Unary", .object [("op", n), ("expr", v)])]) =
      do return unary span (← UnaryOp.ofJson? n) (← read v) :=
  rfl

private theorem ofNode?_var :
    ofNode? read span
      (.object [("Variable", .object [("id", i), ("name", .string name)])]) =
      do return var span (← i.nodeId?) name :=
  rfl

end Nodes

private theorem located?_ofNode?_toJson {read : Json → Option Expr}
    (hfits : expr.fits = true)
    (hread : ∀ sub : Expr, sub.fits = true → sub.toJson.depth < expr.toJson.depth →
      read sub.toJson = some sub) :
    located? (ofNode? read) expr.toJson = some expr := by
  cases expr with
  | assign span id name value =>
    simp only [fits, Bool.and_eq_true] at hfits
    obtain ⟨⟨hspan, hid⟩, hvalue⟩ := hfits
    rw [toJson, located?_located _ _ hspan, ofNode?_assign, nodeId?_int hid,
      hread value hvalue (depth_lt_located_field (by simp))]
    rfl
  | binary span left op right =>
    simp only [fits, Bool.and_eq_true] at hfits
    obtain ⟨⟨hspan, hleft⟩, hright⟩ := hfits
    rw [toJson, located?_located _ _ hspan, ofNode?_binary, BinaryOp.ofJson?_label,
      hread left hleft (depth_lt_located_field (by simp)), hread right hright
        (depth_lt_located_field (by simp))]
    rfl
  | call span id callee args =>
    simp only [fits, Bool.and_eq_true, listFits_iff] at hfits
    obtain ⟨⟨⟨hspan, hid⟩, hcallee⟩, hargs⟩ := hfits
    have hlist : (listToJson args).mapM read = some args := by
      have hdepth : ∀ item ∈ listToJson args, item.depth <
          (call span id callee args).toJson.depth :=
        fun item hitem =>
          Nat.lt_trans (depth_lt_item hitem) (depth_lt_located_field (by simp))
      rw [listToJson_eq_map] at hdepth ⊢
      exact mapM_map fun arg harg =>
        hread arg (hargs arg harg) (hdepth _ (mem_map_of_mem harg))
    rw [toJson, located?_located _ _ hspan, ofNode?_call, nodeId?_int hid,
      hread callee hcallee (depth_lt_located_field (by simp)), hlist]
    rfl
  | get span object name =>
    simp only [fits, Bool.and_eq_true] at hfits
    obtain ⟨⟨hspan, hobject⟩, hname⟩ := hfits
    rw [toJson, located?_located _ _ hspan, ofNode?_get, name_ofJson?_toJson hname,
      hread object hobject (depth_lt_located_field (by simp))]
    rfl
  | grouping span inner =>
    simp only [fits, Bool.and_eq_true] at hfits
    rw [toJson, located?_located _ _ hfits.1, ofNode?_grouping,
      hread inner hfits.2 depth_lt_located]
    rfl
  | literal span value =>
    rw [toJson, located?_located _ _ hfits, ofNode?_literal, value.ofJson?_toJson]
    rfl
  | logical span left op right =>
    simp only [fits, Bool.and_eq_true] at hfits
    obtain ⟨⟨hspan, hleft⟩, hright⟩ := hfits
    rw [toJson, located?_located _ _ hspan, ofNode?_logical, LogicalOp.ofJson?_label,
      hread left hleft (depth_lt_located_field (by simp)), hread right hright
        (depth_lt_located_field (by simp))]
    rfl
  | set span object name value =>
    simp only [fits, Bool.and_eq_true] at hfits
    obtain ⟨⟨⟨hspan, hobject⟩, hname⟩, hvalue⟩ := hfits
    rw [toJson, located?_located _ _ hspan, ofNode?_set, name_ofJson?_toJson hname,
      hread object hobject (depth_lt_located_field (by simp)), hread value hvalue
        (depth_lt_located_field (by simp))]
    rfl
  | super span method =>
    simp only [fits, Bool.and_eq_true] at hfits
    rw [toJson, located?_located _ _ hfits.1, ofNode?_super,
      name_ofJson?_toJson hfits.2]
    rfl
  | this span =>
    rw [toJson, located?_located _ _ hfits]
    rfl
  | unary span op operand =>
    simp only [fits, Bool.and_eq_true] at hfits
    rw [toJson, located?_located _ _ hfits.1, ofNode?_unary, UnaryOp.ofJson?_label,
      hread operand hfits.2 (depth_lt_located_field (by simp))]
    rfl
  | var span id name =>
    simp only [fits, Bool.and_eq_true] at hfits
    rw [toJson, located?_located _ _ hfits.1, ofNode?_var, nodeId?_int hfits.2]
    rfl

private theorem ofJsonWithin?_toJson (hfits : expr.fits = true)
    (hfuel : expr.toJson.depth ≤ fuel) :
    ofJsonWithin? fuel expr.toJson = some expr := by
  induction fuel generalizing expr with
  | zero => cases expr <;> simp [toJson, located, depth] at hfuel
  | succ fuel ih =>
    refine located?_ofNode?_toJson hfits fun sub hsub hdepth => ih hsub ?_
    omega

private theorem ofJson?_toJson (hfits : expr.fits = true) :
    ofJson? expr.toJson = some expr :=
  ofJsonWithin?_toJson hfits (Nat.le_refl _)

private theorem toJson_ne_null (expr : Expr) : expr.toJson ≠ .null := by
  cases expr <;> simp [toJson, located]

private theorem optional?_toJson (hfits : expr?.all fits = true) :
    optional? ofJson? (some (.ofOption toJson expr?)) = some expr? :=
  optional?_ofOption toJson_ne_null fun expr hexpr => ofJson?_toJson (by
    cases hexpr
    exact hfits)

end Expr

/-! ## Statements -/

private theorem Stmt.mapM_listToJson {bound : Nat} (hfits : Stmt.listFits stmts = true)
    (hdepth : (Json.array (Stmt.listToJson stmts)).depth < bound)
    (hread : ∀ stmt : Stmt, stmt.fits = true → stmt.toJson.depth < bound →
      read stmt.toJson = some stmt) :
    (Stmt.listToJson stmts).mapM read = some stmts := by
  rw [Stmt.listFits_iff] at hfits
  rw [Stmt.listToJson_eq_map] at hdepth ⊢
  refine mapM_map fun stmt hstmt => hread stmt (hfits stmt hstmt) ?_
  exact Nat.lt_trans (depth_lt_item (mem_map_of_mem hstmt)) hdepth

private theorem FunctionDecl.ofJson?_object {n s : Json} {params body : List Json} :
    FunctionDecl.ofJson? read
      (.object [("name", n), ("params", .array params), ("body", .array body),
        ("span", s)]) = do
          return .mk (← Name.ofJson? n) (← params.mapM Name.ofJson?) (← body.mapM read)
            (← Span.ofJson? s) :=
  rfl

theorem ClassDecl.ofJson?_object {n c s : Json} {methods : List Json} :
    ClassDecl.ofJson? read
      (.object [("name", n), ("superclass", c), ("methods", .array methods),
        ("span", s)]) = do
          return .mk (← Name.ofJson? n) (← optional? Expr.ofJson? (some c))
            (← methods.mapM (FunctionDecl.ofJson? read)) (← Span.ofJson? s) :=
  rfl

private theorem FunctionDecl.ofJson?_toJson (hfits : decl.fits = true)
    (hread : ∀ stmt : Stmt, stmt.fits = true → stmt.toJson.depth < decl.toJson.depth →
      read stmt.toJson = some stmt) :
    FunctionDecl.ofJson? read decl.toJson = some decl := by
  obtain ⟨name, params, body, span⟩ := decl
  simp only [FunctionDecl.fits, Bool.and_eq_true, all_eq_true] at hfits
  obtain ⟨⟨⟨hname, hparams⟩, hbody⟩, hspan⟩ := hfits
  rw [toJson, ofJson?_object, name_ofJson?_toJson hname,
    mapM_map fun param hparam => name_ofJson?_toJson (hparams param hparam),
    Stmt.mapM_listToJson hbody (depth_lt_field (by simp)) hread,
      span_ofJson?_toJson hspan]
  rfl

private theorem ClassDecl.ofJson?_toJson {read : Json → Option Stmt} {decl : ClassDecl}
    (hfits : decl.fits = true)
    (hread : ∀ stmt : Stmt, stmt.fits = true → stmt.toJson.depth < decl.toJson.depth →
      read stmt.toJson = some stmt) :
    ClassDecl.ofJson? read decl.toJson = some decl := by
  obtain ⟨name, superclass, methods, span⟩ := decl
  simp only [ClassDecl.fits, Bool.and_eq_true, FunctionDecl.listFits_iff] at hfits
  obtain ⟨⟨⟨hname, hsuper⟩, hmethods⟩, hspan⟩ := hfits
  have hlist : (FunctionDecl.listToJson methods).mapM (FunctionDecl.ofJson? read) =
      some methods := by
    have hdepth : ∀ item ∈ FunctionDecl.listToJson methods,
        item.depth < (ClassDecl.mk name superclass methods span).toJson.depth :=
      fun item hitem => Nat.lt_trans (depth_lt_item hitem) (depth_lt_field (by simp))
    rw [FunctionDecl.listToJson_eq_map] at hdepth ⊢
    refine mapM_map fun method hmethod =>
      FunctionDecl.ofJson?_toJson (hmethods method hmethod) ?_
    intro stmt hstmt hlt
    exact hread stmt hstmt (Nat.lt_trans hlt (hdepth _ (mem_map_of_mem hmethod)))
  rw [toJson, ofJson?_object, name_ofJson?_toJson hname,
    Expr.optional?_toJson hsuper, hlist, span_ofJson?_toJson hspan]
  rfl

namespace Stmt

section Nodes

variable {read : Json → Option Stmt} {span : Span} {c n v w : Json}

private theorem ofNode?_block :
    ofNode? read span (.object [("Block", .array items)]) =
      do return block span (← items.mapM read) :=
  rfl

private theorem ofNode?_funcDecl :
    ofNode? read span (.object [("Function", v)]) =
      do return funcDecl span (← FunctionDecl.ofJson? read v) :=
  rfl

private theorem ofNode?_classDecl :
    ofNode? read span (.object [("Class", v)]) =
      do return classDecl span (← ClassDecl.ofJson? read v) :=
  rfl

private theorem ofNode?_branch :
    ofNode? read span
      (.object
        [("If", .object [("cond", c), ("then_branch", v), ("else_branch", w)])]) =
      do return branch span (← Expr.ofJson? c) (← read v) (← optional? read (some w)) :=
  rfl

private theorem ofNode?_print {newline : Bool} :
    ofNode? read span (.object [(if newline then "PrintLine" else "Print", v)]) =
      do return print span newline (← optional? Expr.ofJson? (some v)) := by
  cases newline <;> rfl

private theorem ofNode?_ret :
    ofNode? read span (.object [("Return", v)]) =
      do return ret span (← optional? Expr.ofJson? (some v)) :=
  rfl

private theorem ofNode?_var :
    ofNode? read span (.object [("Var", .object [("name", n), ("init", v)])]) =
      do return var span (← Name.ofJson? n) (← optional? Expr.ofJson? (some v)) :=
  rfl

private theorem ofNode?_loop :
    ofNode? read span (.object [("While", .object [("cond", c), ("body", v)])]) =
      do return loop span (← Expr.ofJson? c) (← read v) :=
  rfl

private theorem ofNode?_expression :
    ofNode? read span (.object [("Expression", c)]) =
      do return expression span (← Expr.ofJson? c) :=
  rfl

end Nodes

private theorem toJson_ne_null (stmt : Stmt) : stmt.toJson ≠ .null := by
  cases stmt <;> simp [toJson, located]

private theorem optionToJson_eq_ofOption (stmt? : Option Stmt) :
    optionToJson stmt? = .ofOption toJson stmt? := by
  cases stmt? <;> rfl

private theorem located?_ofNode?_toJson (hfits : stmt.fits = true)
    (hread : ∀ sub : Stmt, sub.fits = true → sub.toJson.depth < stmt.toJson.depth →
      read sub.toJson = some sub) :
    located? (ofNode? read) stmt.toJson = some stmt := by
  cases stmt with
  | block span body =>
    simp only [fits, Bool.and_eq_true] at hfits
    rw [toJson, located?_located _ _ hfits.1, ofNode?_block,
      mapM_listToJson hfits.2 depth_lt_located hread]
    rfl
  | funcDecl span decl =>
    simp only [fits, Bool.and_eq_true] at hfits
    rw [toJson, located?_located _ _ hfits.1, ofNode?_funcDecl,
      FunctionDecl.ofJson?_toJson hfits.2 fun sub hsub hdepth =>
      hread sub hsub (Nat.lt_trans hdepth depth_lt_located)]
    rfl
  | classDecl span decl =>
    simp only [fits, Bool.and_eq_true] at hfits
    rw [toJson, located?_located _ _ hfits.1, ofNode?_classDecl,
      ClassDecl.ofJson?_toJson hfits.2 fun sub hsub hdepth =>
      hread sub hsub (Nat.lt_trans hdepth depth_lt_located)]
    rfl
  | branch span cond onTrue onFalse =>
    simp only [fits, Bool.and_eq_true] at hfits
    obtain ⟨⟨⟨hspan, hcond⟩, htrue⟩, hfalse⟩ := hfits
    have helse : optional? read (some (optionToJson onFalse)) = some onFalse := by
      rw [optionToJson_eq_ofOption]
      refine optional?_ofOption toJson_ne_null fun sub hsub => ?_
      cases hsub
      exact hread sub hfalse (depth_lt_located_field (by simp [optionToJson]))
    rw [toJson, located?_located _ _ hspan, ofNode?_branch, Expr.ofJson?_toJson hcond,
      hread onTrue htrue (depth_lt_located_field (by simp)), helse]
    rfl
  | print span newline operand =>
    simp only [fits, Bool.and_eq_true] at hfits
    rw [toJson, located?_located _ _ hfits.1, ofNode?_print,
      Expr.optional?_toJson hfits.2]
    rfl
  | ret span operand =>
    simp only [fits, Bool.and_eq_true] at hfits
    rw [toJson, located?_located _ _ hfits.1, ofNode?_ret,
      Expr.optional?_toJson hfits.2]
    rfl
  | brk span =>
    rw [toJson, located?_located _ _ hfits]
    rfl
  | var span name init =>
    simp only [fits, Bool.and_eq_true] at hfits
    obtain ⟨⟨hspan, hname⟩, hinit⟩ := hfits
    rw [toJson, located?_located _ _ hspan, ofNode?_var, name_ofJson?_toJson hname,
      Expr.optional?_toJson hinit]
    rfl
  | loop span cond body =>
    simp only [fits, Bool.and_eq_true] at hfits
    obtain ⟨⟨hspan, hcond⟩, hbody⟩ := hfits
    rw [toJson, located?_located _ _ hspan, ofNode?_loop, Expr.ofJson?_toJson hcond,
      hread body hbody (depth_lt_located_field (by simp))]
    rfl
  | expression span expr =>
    simp only [fits, Bool.and_eq_true] at hfits
    rw [toJson, located?_located _ _ hfits.1, ofNode?_expression,
      Expr.ofJson?_toJson hfits.2]
    rfl

private theorem ofJsonWithin?_toJson (hfits : stmt.fits = true)
    (hfuel : stmt.toJson.depth ≤ fuel) :
    ofJsonWithin? fuel stmt.toJson = some stmt := by
  induction fuel generalizing stmt with
  | zero => cases stmt <;> simp [toJson, located, depth] at hfuel
  | succ fuel ih =>
    refine located?_ofNode?_toJson hfits fun sub hsub hdepth => ih hsub ?_
    omega

private theorem ofJson?_toJson (hfits : stmt.fits = true) :
    ofJson? stmt.toJson = some stmt :=
  ofJsonWithin?_toJson hfits (Nat.le_refl _)

end Stmt

theorem Program.ofJson?_object :
    Program.ofJson? (.object [("stmts", .array items)]) =
      do return ⟨← items.mapM Stmt.ofJson?⟩ :=
  rfl

/-- A program that fits is read back from what is written for it. -/
theorem Program.ofJson?_toJson (hfits : program.fits = true) :
    Program.ofJson? program.toJson = some program := by
  have hstmts := Stmt.listFits_iff.1 hfits
  rw [Program.toJson, Program.ofJson?_object, Stmt.listToJson_eq_map,
    mapM_map fun stmt hstmt => Stmt.ofJson?_toJson (hstmts stmt hstmt)]
  rfl

/-! ## What is read fits -/

namespace Json

private theorem le_and_lt_of_intIn? {low high n : Int}
    (h : j.intIn? low high = some n) : low ≤ n ∧ n < high := by
  cases j with
  | int m =>
    obtain ⟨hm, heq⟩ := Option.ite_none_right_eq_some.1 h
    cases heq
    exact hm
  | _ => cases h

theorem lt_of_offset? {n : Nat} (h : j.offset? = some n) : n < 0x10000000000000000 := by
  obtain ⟨m, hm, rfl⟩ := Option.map_eq_some_iff.1 h
  have := le_and_lt_of_intIn? hm
  omega

private theorem fits_of_nodeId? {id : NodeId} (h : j.nodeId? = some id) :
    NodeId.fits id = true := by
  obtain ⟨m, hm, rfl⟩ := Option.map_eq_some_iff.1 h
  have := le_and_lt_of_intIn? hm
  exact decide_eq_true (show m.toNat < 0x100000000 by omega)

private theorem fits_of_span (h : Span.ofJson? j = some span) : span.fits = true := by
  unfold Span.ofJson? at h
  split at h
  · simp only [Option.bind_eq_bind, Option.bind_eq_some_iff, Option.pure_def,
      Option.some.injEq] at h
    obtain ⟨start, hstart, stop, hstop, rfl⟩ := h
    simp [Span.fits, lt_of_offset? hstart, lt_of_offset? hstop]
  · cases h

private theorem of_located? {read : Span → Json → Option α} {a : α}
    (h : located? read j = some a) :
    ∃ span node, span.fits = true ∧ read span node = some a := by
  unfold located? at h
  split at h
  · obtain ⟨span, hspan, hread⟩ := Option.bind_eq_some_iff.1 h
    exact ⟨span, _, fits_of_span hspan, hread⟩
  · cases h

private theorem fits_of_name {name : Name} (h : Name.ofJson? j = some name) :
    name.span.fits = true := by
  obtain ⟨span, node, hspan, hnode⟩ := of_located? h
  obtain ⟨text, -, rfl⟩ := Option.map_eq_some_iff.1 hnode
  exact hspan

private theorem of_mapM {read : Json → Option α} {as : List α}
    (h : items.mapM read = some as) :
    ∀ a ∈ as, ∃ j, read j = some a := by
  induction items generalizing as with
  | nil =>
    cases h
    exact nofun
  | cons item rest ih =>
    simp only [mapM_cons, Option.bind_eq_bind, Option.bind_eq_some_iff, Option.pure_def,
      Option.some.injEq] at h
    obtain ⟨a, ha, tail, htail, rfl⟩ := h
    exact forall_mem_cons.2 ⟨⟨item, ha⟩, ih htail⟩

private theorem of_optional? {read : Json → Option α} {j? : Option Json} {a? : Option α}
    (h : optional? read j? = some a?) :
    ∀ a ∈ a?, ∃ j, read j = some a := by
  unfold optional? at h
  split at h
  · cases h
    exact nofun
  · cases h
    exact nofun
  · obtain ⟨a, ha, rfl⟩ := Option.map_eq_some_iff.1 h
    intro b hb
    cases hb
    exact ⟨_, ha⟩

end Json

private theorem Expr.fits_of_ofNode? {read : Json → Option Expr}
    (hread : ∀ {j expr}, read j = some expr → expr.fits = true)
    (hspan : span.fits = true) (h : ofNode? read span j = some expr) :
    expr.fits = true := by
  unfold ofNode? at h
  obtain ⟨_, -, h⟩ := Option.bind_eq_some_iff.1 h
  split at h <;> try split at h
  all_goals
    simp only [Option.bind_eq_bind, Option.bind_eq_some_iff, Option.pure_def,
      Option.some.injEq, reduceCtorEq] at h
  · obtain ⟨id, hid, name, -, value, hvalue, rfl⟩ := h
    simp [fits, hspan, fits_of_nodeId? hid, hread hvalue]
  · obtain ⟨left, hleft, op, -, right, hright, rfl⟩ := h
    simp [fits, hspan, hread hleft, hread hright]
  · obtain ⟨id, hid, callee, hcallee, items, -, args, hargs, rfl⟩ := h
    have hlist : listFits args = true := listFits_iff.2 fun arg harg =>
      have ⟨_, harg⟩ := of_mapM hargs arg harg
      hread harg
    simp [fits, hspan, fits_of_nodeId? hid, hread hcallee, hlist]
  · obtain ⟨object, hobject, name, hname, rfl⟩ := h
    simp [fits, hspan, hread hobject, fits_of_name hname]
  · obtain ⟨inner, hinner, rfl⟩ := h
    simp [fits, hspan, hread hinner]
  · obtain ⟨value, -, rfl⟩ := h
    exact hspan
  · obtain ⟨left, hleft, op, -, right, hright, rfl⟩ := h
    simp [fits, hspan, hread hleft, hread hright]
  · obtain ⟨object, hobject, name, hname, value, hvalue, rfl⟩ := h
    simp [fits, hspan, hread hobject, fits_of_name hname, hread hvalue]
  · obtain ⟨method, hmethod, rfl⟩ := h
    simp [fits, hspan, fits_of_name hmethod]
  · subst h
    exact hspan
  · obtain ⟨op, -, operand, hoperand, rfl⟩ := h
    simp [fits, hspan, hread hoperand]
  · obtain ⟨id, hid, name, -, rfl⟩ := h
    simp [fits, hspan, fits_of_nodeId? hid]

theorem Expr.fits_of_ofJsonWithin? (h : ofJsonWithin? fuel j = some expr) :
    expr.fits = true := by
  induction fuel generalizing j expr with
  | zero => cases h
  | succ fuel ih =>
    obtain ⟨span, node, hspan, hnode⟩ := of_located? h
    exact fits_of_ofNode? ih hspan hnode

private theorem Expr.fits_of_ofJson? (h : Expr.ofJson? j = some expr) :
    expr.fits = true :=
  fits_of_ofJsonWithin? h

private theorem Expr.fits_of_optional? {j? : Option Json}
    (h : optional? Expr.ofJson? j? = some expr?) :
    expr?.all Expr.fits = true := by
  cases expr? with
  | none => rfl
  | some expr =>
    obtain ⟨j, hj⟩ := of_optional? h expr rfl
    exact fits_of_ofJson? hj

private theorem Stmt.fits_of_mapM
    (hread : ∀ {j stmt}, read j = some stmt → stmt.fits = true)
    (h : items.mapM read = some stmts) : Stmt.listFits stmts = true :=
  Stmt.listFits_iff.2 fun stmt hstmt =>
    have ⟨_, hj⟩ := of_mapM h stmt hstmt
    hread hj

private theorem FunctionDecl.fits_of_ofJson?
    (hread : ∀ {j stmt}, read j = some stmt → stmt.fits = true)
    (h : FunctionDecl.ofJson? read j = some decl) : decl.fits = true := by
  unfold FunctionDecl.ofJson? at h
  split at h
  all_goals
    simp only [Option.bind_eq_bind, Option.bind_eq_some_iff, Option.pure_def,
      Option.some.injEq, reduceCtorEq] at h
  obtain ⟨name, hname, _, -, params, hparams, _, -, body, hbody, span, hspan, rfl⟩ := h
  have hall : params.all (·.span.fits) = true := all_eq_true.2 fun param hparam =>
    have ⟨_, hj⟩ := of_mapM hparams param hparam
    fits_of_name hj
  simp only [FunctionDecl.fits, fits_of_name hname, hall, Stmt.fits_of_mapM hread hbody,
    fits_of_span hspan, Bool.and_self]

private theorem ClassDecl.fits_of_ofJson? {read : Json → Option Stmt} {j : Json}
    {decl : ClassDecl} (hread : ∀ {j stmt}, read j = some stmt → stmt.fits = true)
    (h : ClassDecl.ofJson? read j = some decl) : decl.fits = true := by
  unfold ClassDecl.ofJson? at h
  split at h
  all_goals
    simp only [Option.bind_eq_bind, Option.bind_eq_some_iff, Option.pure_def,
      Option.some.injEq, reduceCtorEq] at h
  obtain ⟨name, hname, superclass, hsuper, _, -, methods, hmethods, span, hspan, rfl⟩ :=
    h
  have hlist : FunctionDecl.listFits methods = true :=
    FunctionDecl.listFits_iff.2 fun method hmethod =>
    have ⟨_, hj⟩ := of_mapM hmethods method hmethod
    FunctionDecl.fits_of_ofJson? hread hj
  simp only [ClassDecl.fits, fits_of_name hname, Expr.fits_of_optional? hsuper, hlist,
    fits_of_span hspan, Bool.and_self]

private theorem Stmt.fits_of_ofNode?
    (hread : ∀ {j stmt}, read j = some stmt → stmt.fits = true)
    (hspan : span.fits = true) (h : ofNode? read span j = some stmt) :
    stmt.fits = true := by
  unfold ofNode? at h
  obtain ⟨_, -, h⟩ := Option.bind_eq_some_iff.1 h
  split at h <;> try split at h
  all_goals
    simp only [Option.bind_eq_bind, Option.bind_eq_some_iff, Option.pure_def,
      Option.some.injEq, reduceCtorEq] at h
  · obtain ⟨items, -, body, hbody, rfl⟩ := h
    simp [fits, hspan, fits_of_mapM hread hbody]
  · obtain ⟨decl, hdecl, rfl⟩ := h
    simp [fits, hspan, FunctionDecl.fits_of_ofJson? hread hdecl]
  · obtain ⟨decl, hdecl, rfl⟩ := h
    simp [fits, hspan, ClassDecl.fits_of_ofJson? hread hdecl]
  · obtain ⟨cond, hcond, onTrue, htrue, onFalse, hfalse, rfl⟩ := h
    have helse : optionFits onFalse = true := by
      cases onFalse with
      | none => rfl
      | some stmt =>
        obtain ⟨_, hj⟩ := of_optional? hfalse stmt rfl
        exact hread hj
    simp [fits, hspan, Expr.fits_of_ofJson? hcond, hread htrue, helse]
  · obtain ⟨operand, hoperand, rfl⟩ := h
    simp [fits, hspan, Expr.fits_of_optional? hoperand]
  · obtain ⟨operand, hoperand, rfl⟩ := h
    simp [fits, hspan, Expr.fits_of_optional? hoperand]
  · obtain ⟨operand, hoperand, rfl⟩ := h
    simp [fits, hspan, Expr.fits_of_optional? hoperand]
  · subst h
    exact hspan
  · obtain ⟨name, hname, init, hinit, rfl⟩ := h
    simp [fits, hspan, fits_of_name hname, Expr.fits_of_optional? hinit]
  · obtain ⟨cond, hcond, body, hbody, rfl⟩ := h
    simp [fits, hspan, Expr.fits_of_ofJson? hcond, hread hbody]
  · obtain ⟨expr, hexpr, rfl⟩ := h
    simp [fits, hspan, Expr.fits_of_ofJson? hexpr]

private theorem Stmt.fits_of_ofJsonWithin? (h : ofJsonWithin? fuel j = some stmt) :
    stmt.fits = true := by
  induction fuel generalizing j stmt with
  | zero => cases h
  | succ fuel ih =>
    obtain ⟨span, node, hspan, hnode⟩ := of_located? h
    exact fits_of_ofNode? ih hspan hnode

/-- A program that is read fits. -/
theorem Program.fits_of_ofJson? (h : Program.ofJson? j = some program) :
    program.fits = true := by
  unfold Program.ofJson? at h
  split at h
  all_goals
    simp only [Option.bind_eq_bind, Option.bind_eq_some_iff, Option.pure_def,
      Option.some.injEq, reduceCtorEq] at h
  obtain ⟨_, -, stmts, hstmts, rfl⟩ := h
  exact Stmt.fits_of_mapM Stmt.fits_of_ofJsonWithin? hstmts

/-! ## Normal forms -/

/-- What is written for the program that a value is read as. -/
def Program.normal? (j : Json) : Option Json :=
  (Program.ofJson? j).map Program.toJson

/-- The programs whose numbers are in range are those that are read back from what is
written for them. Any program that is read is one of these, so that a value that was
read and written stays as it is. -/
theorem read_write_stable :
    (∀ program : Program,
      program.fits = true ↔ Program.ofJson? program.toJson = some program) ∧
    (∀ (j : Json) (program : Program), Program.ofJson? j = some program →
      Program.ofJson? program.toJson = some program) ∧
    ∀ j : Json, (Program.normal? j).bind Program.normal? = Program.normal? j := by
  have hback : ∀ (j : Json) (program : Program), Program.ofJson? j = some program →
      Program.ofJson? program.toJson = some program :=
    fun j program h => Program.ofJson?_toJson (Program.fits_of_ofJson? h)
  refine ⟨fun program => ⟨Program.ofJson?_toJson, Program.fits_of_ofJson?⟩, hback,
    fun j => ?_⟩
  unfold Program.normal?
  cases h : Program.ofJson? j with
  | none => rfl
  | some program =>
    rw [Option.map_some, Option.bind_some, hback j program h, Option.map_some]

-- A missing initial value, an unknown field and a name with `null` are gone in the
-- normal form.
example :
    let place : Json := .array [.int 0, .int 5]
    let name : Json := .object [("span", place), ("node", .string "x")]
    let declaration : Json :=
      .object [("Var", .object [("note", .bool true), ("name", name)])]
    Program.normal? (.array [.array [.array [declaration, place],
      .array [.object [("Break", .null)], place]]]) =
    some (Program.toJson ⟨[.var ⟨0, 5⟩ ⟨"x", ⟨0, 5⟩⟩ none, .brk ⟨0, 5⟩]⟩) := by
  rfl

end Treewalk
