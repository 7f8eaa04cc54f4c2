import Mathlib.Data.List.TakeWhile
import Treewalk.Proofs.Scope.Standing
import Treewalk.Proofs.Tree.Parts

/-!
# Where code stands in a program

Every expression and every statement of a program stands inside blocks, functions,
methods and classes, and a run opens a scope for each of them: for a block, for the call
of a function, for the receiver of a method, and for the superclass of a class that has
one. A `Spot` is a piece of code with what opens the scopes around it, the innermost
first. Top-level code stands inside nothing.

`FunctionDecl.spots` are the spots of a body, as the function would be called from the
given scopes, and `ClassDecl.spots` those of a class, whose methods see one scope more
where there is a superclass.
-/

namespace Treewalk

open List

variable {around : List Origin}

/-- A piece of code. -/
inductive Piece where
  | expr (expr : Expr)
  | stmt (stmt : Stmt)

/-- A piece of code with what opens the scopes around it. -/
structure Spot where
  piece : Piece
  around : List Origin

/-- The spots of an expression, all of them inside the same scopes. -/
def Expr.spots (around : List Origin) (expr : Expr) : List Spot :=
  expr.parts.map fun part => ⟨.expr part, around⟩

/-- The spots of an expression that may be absent. -/
def Expr.optionSpots (around : List Origin) (expr : Option Expr) : List Spot :=
  (Expr.optionParts expr).map fun part => ⟨.expr part, around⟩

/-- What is around the methods of a class. -/
def ClassDecl.inside (decl : ClassDecl) (around : List Origin) : List Origin :=
  match decl.superclass with
  | some _ => .superclass decl :: around
  | none => around

mutual

/-- The spots of a statement, its own first. -/
def Stmt.spots (around : List Origin) : Stmt → List Spot
  | .block span body =>
    ⟨.stmt (.block span body), around⟩ ::
      Stmt.listSpots (.block span body :: around) body
  | .funcDecl span decl => ⟨.stmt (.funcDecl span decl), around⟩ :: decl.spots around
  | .classDecl span decl => ⟨.stmt (.classDecl span decl), around⟩ :: decl.spots around
  | .branch span cond onTrue none =>
    ⟨.stmt (.branch span cond onTrue none), around⟩ ::
      (cond.spots around ++ onTrue.spots around)
  | .branch span cond onTrue (some onFalse) =>
    ⟨.stmt (.branch span cond onTrue (some onFalse)), around⟩ ::
      (cond.spots around ++ (onTrue.spots around ++ onFalse.spots around))
  | .print span newline operand =>
    ⟨.stmt (.print span newline operand), around⟩ :: Expr.optionSpots around operand
  | .ret span operand =>
    ⟨.stmt (.ret span operand), around⟩ :: Expr.optionSpots around operand
  | .brk span => [⟨.stmt (.brk span), around⟩]
  | .var span name init =>
    ⟨.stmt (.var span name init), around⟩ :: Expr.optionSpots around init
  | .loop span cond body =>
    ⟨.stmt (.loop span cond body), around⟩ :: (cond.spots around ++ body.spots around)
  | .expression span expr =>
    ⟨.stmt (.expression span expr), around⟩ :: expr.spots around

/-- The spots of statements. -/
def Stmt.listSpots (around : List Origin) : List Stmt → List Spot
  | [] => []
  | stmt :: rest => stmt.spots around ++ Stmt.listSpots around rest

/-- The spots of a body. -/
def FunctionDecl.spots (around : List Origin) : FunctionDecl → List Spot
  | .mk name params body span =>
    Stmt.listSpots (.call (.mk name params body span) :: around) body

/-- The spots of a class. -/
def ClassDecl.spots (around : List Origin) : ClassDecl → List Spot
  | .mk name superclass methods span =>
    Expr.optionSpots around superclass ++
      FunctionDecl.methodSpots
        (ClassDecl.inside (.mk name superclass methods span) around) methods

/-- The spots of methods, each of them with a scope for its receiver. -/
def FunctionDecl.methodSpots (around : List Origin) : List FunctionDecl → List Spot
  | [] => []
  | decl :: rest =>
    decl.spots (.receiver decl :: around) ++ FunctionDecl.methodSpots around rest

end

/-- The spots of a program. -/
def Program.spots (program : Program) : List Spot :=
  Stmt.listSpots [] program.stmts

/-! ## Pieces of pieces -/

theorem Expr.mem_spots_self (around : List Origin) (expr : Expr) :
    ⟨.expr expr, around⟩ ∈ expr.spots around :=
  mem_map.2 ⟨expr, expr.self_mem_parts, rfl⟩

theorem Expr.spots_subset {expr whole : Expr} (h : expr ∈ whole.parts) :
    expr.spots around ⊆ whole.spots around :=
  map_subset _ (whole.closed_parts h)

theorem Stmt.mem_spots_self (around : List Origin) (stmt : Stmt) :
    ⟨.stmt stmt, around⟩ ∈ stmt.spots around := by
  unfold Stmt.spots
  split <;> exact mem_cons_self

theorem Stmt.spots_subset {stmt : Stmt} {body : List Stmt} (h : stmt ∈ body) :
    stmt.spots around ⊆ Stmt.listSpots around body := by
  induction body with
  | nil => cases h
  | cons first rest ih =>
    rw [Stmt.listSpots]
    rcases mem_cons.1 h with rfl | hrest
    · exact subset_append_left _ _
    · exact subset_append_of_subset_right _ (ih hrest)

@[simp] theorem FunctionDecl.listSpots_body (around : List Origin)
    (decl : FunctionDecl) :
    Stmt.listSpots (.call decl :: around) decl.body = decl.spots around := by
  cases decl
  simp only [FunctionDecl.spots, FunctionDecl.body]

theorem ClassDecl.spots_eq (around : List Origin) (decl : ClassDecl) :
    decl.spots around = Expr.optionSpots around decl.superclass ++
      FunctionDecl.methodSpots (decl.inside around) decl.methods := by
  cases decl
  simp only [ClassDecl.spots, ClassDecl.superclass, ClassDecl.methods]

theorem FunctionDecl.spots_subset_methodSpots {decl : FunctionDecl}
    {methods : List FunctionDecl} (h : decl ∈ methods) :
    decl.spots (.receiver decl :: around) ⊆
      FunctionDecl.methodSpots around methods := by
  induction methods with
  | nil => cases h
  | cons first rest ih =>
    rw [FunctionDecl.methodSpots]
    rcases mem_cons.1 h with rfl | hrest
    · exact subset_append_left _ _
    · exact subset_append_of_subset_right _ (ih hrest)

/-! ## Code further inside -/

/-- A property of code and of what is around it that the code further inside has too. -/
structure Inward (P : List Origin → Piece → Prop) : Prop where
  part : ∀ {around expr part}, P around (.expr expr) → part ∈ expr.parts →
    P around (.expr part)
  operand : ∀ {around stmt expr}, P around (.stmt stmt) → expr ∈ stmt.operands →
    P around (.expr expr)
  branch : ∀ {around stmt inner}, P around (.stmt stmt) → inner ∈ stmt.branches →
    P around (.stmt inner)
  block : ∀ {around span body stmt}, P around (.stmt (.block span body)) → stmt ∈ body →
    P (.block span body :: around) (.stmt stmt)
  function : ∀ {around span decl stmt}, P around (.stmt (.funcDecl span decl)) →
    stmt ∈ decl.body → P (.call decl :: around) (.stmt stmt)
  method : ∀ {around span decl method stmt}, P around (.stmt (.classDecl span decl)) →
    method ∈ decl.methods → stmt ∈ method.body →
    P (.call method :: .receiver method :: decl.inside around) (.stmt stmt)

namespace Inward

variable {P : List Origin → Piece → Prop}

private theorem spots_expr (hP : Inward P) {expr : Expr} (h : P around (.expr expr)) :
    ∀ spot ∈ expr.spots around, P spot.around spot.piece :=
  forall_mem_map.2 fun _ hpart => hP.part h hpart

private theorem optionSpots (hP : Inward P) {expr : Option Expr}
    (h : ∀ operand ∈ expr.toList, P around (.expr operand)) :
    ∀ spot ∈ Expr.optionSpots around expr, P spot.around spot.piece := by
  cases expr with
  | none => exact forall_mem_nil _
  | some expr => exact hP.spots_expr (h expr (mem_singleton_self expr))

mutual

private theorem spots_stmt (hP : Inward P) :
    ∀ {stmt : Stmt} {around : List Origin}, P around (.stmt stmt) →
    ∀ spot ∈ stmt.spots around, P spot.around spot.piece
  | .block _ _, _, h => by
    rw [Stmt.spots]
    exact forall_mem_cons.2 ⟨h, hP.listSpots fun _ => hP.block h⟩
  | .funcDecl _ _, _, h => by
    rw [Stmt.spots]
    exact forall_mem_cons.2 ⟨h, hP.spots_function fun _ => hP.function h⟩
  | .classDecl _ (.mk _ _ _ _), _, h => by
    rw [Stmt.spots, ClassDecl.spots]
    exact forall_mem_cons.2 ⟨h, forall_mem_append.2
      ⟨hP.optionSpots fun _ => hP.operand h, hP.methodSpots fun _ hmethod _ =>
        hP.method h hmethod⟩⟩
  | .branch _ _ _ none, _, h => by
    rw [Stmt.spots]
    exact forall_mem_cons.2 ⟨h, forall_mem_append.2
      ⟨hP.spots_expr (hP.operand h mem_cons_self),
        hP.spots_stmt (hP.branch h mem_cons_self)⟩⟩
  | .branch _ _ _ (some _), _, h => by
    rw [Stmt.spots]
    refine forall_mem_cons.2 ⟨h, forall_mem_append.2 ⟨?_, forall_mem_append.2 ⟨?_, ?_⟩⟩⟩
    · exact hP.spots_expr (hP.operand h mem_cons_self)
    · exact hP.spots_stmt (hP.branch h mem_cons_self)
    · exact hP.spots_stmt (hP.branch h (mem_cons_of_mem _ mem_cons_self))
  | .print _ _ _, _, h => by
    rw [Stmt.spots]
    exact forall_mem_cons.2 ⟨h, hP.optionSpots fun _ => hP.operand h⟩
  | .ret _ _, _, h => by
    rw [Stmt.spots]
    exact forall_mem_cons.2 ⟨h, hP.optionSpots fun _ => hP.operand h⟩
  | .brk _, _, h => by
    rw [Stmt.spots]
    exact forall_mem_singleton.2 h
  | .var _ _ _, _, h => by
    rw [Stmt.spots]
    exact forall_mem_cons.2 ⟨h, hP.optionSpots fun _ => hP.operand h⟩
  | .loop _ _ _, _, h => by
    rw [Stmt.spots]
    exact forall_mem_cons.2 ⟨h, forall_mem_append.2
      ⟨hP.spots_expr (hP.operand h mem_cons_self),
        hP.spots_stmt (hP.branch h mem_cons_self)⟩⟩
  | .expression _ _, _, h => by
    rw [Stmt.spots]
    exact forall_mem_cons.2 ⟨h, hP.spots_expr (hP.operand h mem_cons_self)⟩

theorem listSpots (hP : Inward P) : ∀ {body : List Stmt} {around : List Origin},
    (∀ stmt ∈ body, P around (.stmt stmt)) → ∀ spot ∈ Stmt.listSpots around body,
      P spot.around spot.piece
  | [], _, _ => by
    rw [Stmt.listSpots]
    exact forall_mem_nil _
  | _ :: _, _, h => by
    rw [Stmt.listSpots]
    obtain ⟨hfirst, hrest⟩ := forall_mem_cons.1 h
    exact forall_mem_append.2 ⟨hP.spots_stmt hfirst, hP.listSpots hrest⟩

theorem spots_function (hP : Inward P) : ∀ {decl : FunctionDecl} {around : List Origin},
    (∀ stmt ∈ decl.body, P (.call decl :: around) (.stmt stmt)) →
      ∀ spot ∈ decl.spots around, P spot.around spot.piece
  | .mk _ _ _ _, _, h => by
    rw [FunctionDecl.spots]
    exact hP.listSpots h

theorem methodSpots (hP : Inward P) :
    ∀ {methods : List FunctionDecl} {around : List Origin},
    (∀ method ∈ methods, ∀ stmt ∈ method.body,
      P (.call method :: .receiver method :: around) (.stmt stmt)) →
      ∀ spot ∈ FunctionDecl.methodSpots around methods, P spot.around spot.piece
  | [], _, _ => by
    rw [FunctionDecl.methodSpots]
    exact forall_mem_nil _
  | _ :: _, _, h => by
    rw [FunctionDecl.methodSpots]
    obtain ⟨hfirst, hrest⟩ := forall_mem_cons.1 h
    exact forall_mem_append.2 ⟨hP.spots_function hfirst, hP.methodSpots hrest⟩

end

end Inward

/-- The innermost method around, with its class, if this has a superclass. -/
def Origin.subclassMethod? (around : List Origin) : Option (FunctionDecl × ClassDecl) :=
  match around.dropWhile Origin.isBody with
  | .receiver method :: .superclass decl :: _ => some (method, decl)
  | _ => none

/-- Right inside the scope of a receiver is the scope of a call of the same method. -/
def Origin.Paired (around : List Origin) : Prop :=
  ∀ inner method outer, around = inner ++ .receiver method :: outer → ∃ nearer,
    inner = nearer ++ [.call method]

namespace Origin.Paired

private theorem nil : Origin.Paired [] :=
  fun _ _ _ h => absurd h.symm (append_ne_nil_of_right_ne_nil _ (cons_ne_nil _ _))

theorem cons (h : Origin.Paired around) {origin : Origin}
    (hother : ∀ method, origin ≠ .receiver method) :
    Origin.Paired (origin :: around) := by
  intro inner method outer haround
  rcases cons_eq_append_iff.1 haround with ⟨-, hfirst⟩ | ⟨inner, rfl, hrest⟩
  · exact absurd (List.cons.inj hfirst).1.symm (hother method)
  · obtain ⟨nearer, rfl⟩ := h inner method outer hrest
    exact ⟨origin :: nearer, rfl⟩

private theorem method {around : List Origin} (h : Origin.Paired around)
    (decl : FunctionDecl) :
    Origin.Paired (.call decl :: .receiver decl :: around) := by
  intro inner method outer haround
  rcases cons_eq_append_iff.1 haround with ⟨-, hfirst⟩ | ⟨inner, rfl, hbehind⟩
  · cases (List.cons.inj hfirst).1
  rcases cons_eq_append_iff.1 hbehind with ⟨rfl, hsecond⟩ | ⟨inner, rfl, hrest⟩
  · cases (List.cons.inj hsecond).1
    exact ⟨[], rfl⟩
  · obtain ⟨nearer, rfl⟩ := h inner method outer hrest
    exact ⟨.call decl :: .receiver decl :: nearer, rfl⟩

private theorem inside (h : Origin.Paired around) (decl : ClassDecl) :
    Origin.Paired (decl.inside around) := by
  unfold ClassDecl.inside
  split
  · exact h.cons fun _ => Origin.noConfusion
  · exact h

private theorem inward : Inward fun around _ => Origin.Paired around where
  part h _ := h
  operand h _ := h
  branch h _ := h
  block h _ := h.cons fun _ => Origin.noConfusion
  function h _ := h.cons fun _ => Origin.noConfusion
  method h _ _ := (h.inside _).method _

/-- Up to the method there are bodies only, the last of them that of the method. -/
theorem exists_of_subclassMethod? (h : Origin.Paired around) {method : FunctionDecl}
    {decl : ClassDecl} (hmethod : Origin.subclassMethod? around = some (method, decl)) :
    ∃ inner outer, around = inner ++ .call method :: .receiver method ::
      .superclass decl :: outer ∧ ∀ origin ∈ inner, origin.isBody = true := by
  unfold Origin.subclassMethod? at hmethod
  split at hmethod
  case h_1 method decl outer hdrop =>
    cases hmethod
    have hsplit : around = around.takeWhile Origin.isBody ++ .receiver method ::
        .superclass decl :: outer := by
      rw [← hdrop, takeWhile_append_dropWhile]
    obtain ⟨inner, hinner⟩ := h _ method _ hsplit
    refine ⟨inner, outer, ?_, fun origin horigin => ?_⟩
    · rw [hinner, append_assoc] at hsplit
      exact hsplit
    · have hmem : origin ∈ around.takeWhile Origin.isBody := by
        rw [hinner]
        exact mem_append_left _ horigin
      exact mem_takeWhile_imp hmem
  case h_2 => cases hmethod

end Origin.Paired

theorem Program.paired_of_mem_spots {program : Program} {spot : Spot}
    (h : spot ∈ program.spots) :
    Origin.Paired spot.around :=
  Origin.Paired.inward.listSpots (fun _ _ => .nil) spot h

/-! ## Names -/

/-- The names that a piece of code declares or assigns itself. -/
def Piece.names : Piece → List String
  | .expr (.assign _ _ name _) => [name]
  | .stmt (.var _ name _) => [name.node]
  | .stmt (.funcDecl _ decl) => decl.name.node :: decl.params.map (·.node)
  | .stmt (.classDecl _ decl) =>
    decl.name.node :: decl.methods.flatMap fun method => method.params.map (·.node)
  | _ => []

/-- The names by which a run finds receivers and superclasses. -/
def Reserved (name : String) : Prop :=
  name = "this" ∨ name = "super"

end Treewalk
