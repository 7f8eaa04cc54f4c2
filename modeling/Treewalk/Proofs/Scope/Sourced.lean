import Treewalk.Proofs.Scope.Spots
import Treewalk.Proofs.Session.History
import Treewalk.Proofs.Tree.Extent

/-!
# What a program takes from its text

The code at the spots of a program are nodes of its tree, and a tree has its names and
its places from the tokens that its nodes stand at. So a name that a program declares or
assigns is no reserved word (`Source.not_reserved_of_read`), and the place of an
expression is a part of the text (`Source.inside_of_read`).
-/

namespace Treewalk

open List

variable {name : String} {decl : FunctionDecl} {t : Located Token}

/-! ## Spots are nodes -/

namespace Node

private theorem children_call (span : Span) (id : NodeId) (callee : Expr)
    (args : List Expr) :
    children (.expr (.call span id callee args)) = .expr callee :: args.map .expr := by
  simp [children, form, Expr.form, filterMap_cons, Grammar.nodes_commas, Item.node?]

private theorem children_function (decl : FunctionDecl) :
    children (.function decl) = .name decl.name ::
      (decl.params.map .name ++ decl.body.map .stmt) := by
  simp [children, form, FunctionDecl.form, filterMap_cons, Grammar.nodes_commas,
    Grammar.nodes_stmts, Item.node?, Item.braces]

private theorem children_cls (decl : ClassDecl) :
    children (.cls decl) = .name decl.name ::
      (decl.superclass.toList.map .expr ++ decl.methods.map .function) := by
  obtain ⟨name, superclass, methods, span⟩ := decl
  cases superclass <;>
    simp [children, form, ClassDecl.form, Item.node?, Item.braces, Item.functions,
      ClassDecl.superclass, ClassDecl.methods, filterMap_cons, filterMap_map,
      Function.comp_def]

end Node

/-- The node that a piece of code is. -/
def Piece.node : Piece → Node
  | .expr e => .expr e
  | .stmt s => .stmt s

namespace Program

variable {program : Program}

private theorem HasNode.sub {expr sub : Expr} (h : program.HasNode (.expr expr))
    (hsub : sub ∈ expr.subs) :
    program.HasNode (.expr sub) := by
  refine h.child ?_
  cases expr with
  | call span id callee args =>
    rw [Node.children_call]
    exact mem_map_of_mem hsub
  | _ =>
    simp_all [Node.children, Node.form, Expr.form, Item.node?, Expr.subs,
      @eq_comm _ _ sub]

private theorem HasNode.part {expr part : Expr} (h : program.HasNode (.expr expr))
    (hpart : part ∈ expr.parts) :
    program.HasNode (.expr part) := by
  induction expr using Expr.induction_subs with
  | step expr ih =>
    rcases Expr.mem_parts.1 hpart with ⟨sub, hsub, hpart⟩ | rfl
    · exact ih sub hsub (h.sub hsub) hpart
    · exact h

private theorem HasNode.body (h : program.HasNode (.function decl)) {stmt : Stmt}
    (hstmt : stmt ∈ decl.body) :
    program.HasNode (.stmt stmt) := by
  refine h.child ?_
  rw [Node.children_function]
  exact mem_cons_of_mem _ (mem_append_right _ (mem_map_of_mem hstmt))

private theorem HasNode.method {decl : ClassDecl} (h : program.HasNode (.cls decl))
    {method : FunctionDecl} (hmethod : method ∈ decl.methods) :
    program.HasNode (.function method) := by
  refine h.child ?_
  rw [Node.children_cls]
  exact mem_cons_of_mem _ (mem_append_right _ (mem_map_of_mem hmethod))

private theorem inward_hasNode : Inward fun _ piece => program.HasNode piece.node where
  part := HasNode.part
  operand {_ stmt expr} h hexpr := by
    cases stmt with
    | classDecl span decl =>
      refine (h.child mem_cons_self : program.HasNode (.cls decl)).child ?_
      rw [Node.children_cls]
      exact mem_cons_of_mem _ (mem_append_left _ (mem_map_of_mem hexpr))
    | branch span cond onTrue onFalse =>
      exact mem_singleton.1 hexpr ▸ h.child mem_cons_self
    | print span newline operand =>
      cases operand with
      | none => cases hexpr
      | some operand => exact mem_singleton.1 hexpr ▸ h.child mem_cons_self
    | ret span operand =>
      cases operand with
      | none => cases hexpr
      | some operand => exact mem_singleton.1 hexpr ▸ h.child mem_cons_self
    | var span name init =>
      cases init with
      | none => cases hexpr
      | some init =>
        exact mem_singleton.1 hexpr ▸ h.child (mem_cons_of_mem _ mem_cons_self)
    | loop span cond body => exact mem_singleton.1 hexpr ▸ h.child mem_cons_self
    | expression span operand => exact mem_singleton.1 hexpr ▸ h.child mem_cons_self
    | _ => cases hexpr
  branch {_ stmt inner} h hinner := by
    cases stmt with
    | branch span cond onTrue onFalse =>
      rcases mem_cons.1 hinner with rfl | hinner
      · exact h.child (mem_cons_of_mem _ mem_cons_self)
      · cases onFalse with
        | none => cases hinner
        | some onFalse =>
          exact mem_singleton.1 hinner ▸
            h.child (mem_cons_of_mem _ (mem_cons_of_mem _ mem_cons_self))
    | loop span cond body =>
      exact mem_singleton.1 hinner ▸ h.child (mem_cons_of_mem _ mem_cons_self)
    | _ => cases hinner
  block {_ span body stmt} h hstmt := by
    refine h.child ?_
    simp only [Node.children, Node.form, Stmt.form, Item.braces]
    exact mem_filterMap.2 ⟨.node (.stmt stmt),
      mem_cons_of_mem _ (mem_append_left _ (mem_map_of_mem hstmt)), rfl⟩
  function h hstmt := (h.child mem_cons_self : program.HasNode (.function _)).body hstmt
  method h hmethod hstmt :=
    ((h.child mem_cons_self : program.HasNode (.cls _)).method hmethod).body hstmt

private theorem hasNode_of_mem_spots {spot : Spot} (h : spot ∈ program.spots) :
    program.HasNode spot.piece.node :=
  inward_hasNode.listSpots (fun _ hstmt => .stmt hstmt) spot h

end Program

/-! ## Names -/

namespace Grammar

theorem Fills.exists_token {items : List Item} {ts : Tokens} (h : Fills items ts)
    {t : Token} (ht : .token t ∈ items) : ∃ a, ⟨t, a⟩ ∈ ts := by
  induction h with
  | nil => cases ht
  | @token first a items ts _ ih =>
    rcases mem_cons.1 ht with hfirst | ht
    · cases hfirst
      exact ⟨a, mem_cons_self⟩
    · exact (ih ht).imp fun _ hmem => mem_cons_of_mem _ hmem
  | @node first trailing items us ts _ _ _ _ ih =>
    rcases mem_cons.1 ht with hfirst | ht
    · cases hfirst
    · exact (ih ht).imp fun _ hmem => mem_append_right _ hmem

section Names

variable {program : Program} {tokens : Tokens}
  (h : Fills (Item.stmts program.stmts) tokens)

include h

theorem Fills.exists_ident {node : Node} (hnode : program.HasNode node)
    (hname : ∀ trailing, .token (.ident name) ∈ node.form trailing) :
    ∃ t ∈ tokens, t.node = .ident name := by
  obtain ⟨before, us, after, rfl, ⟨trailing, hform⟩, -⟩ := h.block_of_hasNode hnode
  obtain ⟨a, ha⟩ := hform.exists_token (hname trailing)
  exact ⟨_, mem_append_left _ (mem_append_right _ ha), rfl⟩

theorem Fills.ident_of_name {name : Name} (hnode : program.HasNode (.name name)) :
    ∃ t ∈ tokens, t.node = .ident name.node :=
  h.exists_ident hnode fun _ => mem_cons_self

private theorem Fills.ident_of_param (hnode : program.HasNode (.function decl))
    (hname : name ∈ decl.params.map (·.node)) :
    ∃ t ∈ tokens, t.node = .ident name := by
  obtain ⟨param, hparam, rfl⟩ := mem_map.1 hname
  refine h.ident_of_name (hnode.child ?_)
  rw [Node.children_function]
  exact mem_cons_of_mem _ (mem_append_left _ (mem_map_of_mem hparam))

private theorem Fills.ident_of_piece {piece : Piece}
    (hnode : program.HasNode piece.node) (hname : name ∈ piece.names) :
    ∃ t ∈ tokens, t.node = .ident name := by
  unfold Piece.names at hname
  split at hname
  · rw [mem_singleton.1 hname]
    exact h.exists_ident hnode fun _ => mem_cons_self
  · rw [mem_singleton.1 hname]
    exact h.ident_of_name (hnode.child mem_cons_self)
  · have hdecl := hnode.child mem_cons_self
    rcases mem_cons.1 hname with rfl | hname
    · exact h.ident_of_name (hdecl.child mem_cons_self)
    · exact h.ident_of_param hdecl hname
  · have hdecl := hnode.child mem_cons_self
    rcases mem_cons.1 hname with rfl | hname
    · exact h.ident_of_name (hdecl.child mem_cons_self)
    · obtain ⟨method, hmethod, hname⟩ := mem_flatMap.1 hname
      exact h.ident_of_param (hdecl.method hmethod) hname
  · cases hname

end Names

end Grammar

/-! ## Texts -/

private theorem Means.of_ident {p : Pattern} {w : List Char} {t? : Option Token}
    (h : Means p w t?) (hident : t? = some (.ident name)) :
    p = .ident ∧ name = String.ofList w := by
  cases h <;> cases hident
  exact ⟨rfl, rfl⟩

private theorem Split.not_reserved {text rest : List Char} {ls : List Lexeme}
    (h : Split text ls rest) {start : Nat} (ht : t ∈ placed start ls)
    (hident : t.node = .ident name) (k : Keyword) : name ≠ k.text := by
  induction h generalizing start with
  | here => cases ht
  | @next l ls text rest first others ih =>
    rcases mem_append.1 ht with hfirst | hothers
    · obtain ⟨pattern, chars, token?⟩ := l
      cases token? with
      | none => cases hfirst
      | some token =>
        obtain rfl := mem_singleton.1 hfirst
        obtain rfl : token = .ident name := hident
        obtain ⟨hpattern, hname⟩ := first.means.of_ident rfl
        intro hreserved
        refine first.longest.reserved hpattern k ?_
        rw [← hreserved, hname, String.toList_ofList]
    · exact ih hothers

/-- No token that is a name is a reserved word. -/
theorem not_reserved_of_tokenize {source : String} {tokens : List (Located Token)}
    (h : tokenize source = .ok tokens) (ht : t ∈ tokens) (hident : t.node = .ident name)
    (k : Keyword) : name ≠ k.text := by
  cases scanned_tokenize.1 h with
  | ok split => exact split.not_reserved ht hident k

/-- Both ends are between characters of the text. -/
structure Span.Inside (span : Span) (source : String) : Prop where
  start_le : span.start ≤ source.utf8ByteSize
  stop_le : span.stop ≤ source.utf8ByteSize
  start : String.Pos.Raw.IsValid source ⟨span.start⟩
  stop : String.Pos.Raw.IsValid source ⟨span.stop⟩

namespace Source

variable {n next : NodeId} {source : String} {program : Program}

/-- A program declares and assigns neither `this` nor `super`. -/
theorem not_reserved_of_read (h : read n source = (.ok program, next)) {spot : Spot}
    (hspot : spot ∈ program.spots) (hname : name ∈ spot.piece.names) :
    ¬Reserved name := by
  obtain ⟨tokens, hscan, hparse⟩ := read_eq_ok_iff.1 h
  have hfills :=
    Grammar.Declarations.fills (derives_of_parse hparse)
    (Grammar.ordered_of_tokenize hscan)
  obtain ⟨t, ht, hident⟩ :=
    hfills.ident_of_piece (Program.hasNode_of_mem_spots hspot) hname
  rintro (rfl | rfl)
  · exact not_reserved_of_tokenize hscan ht hident .this rfl
  · exact not_reserved_of_tokenize hscan ht hident .super rfl

/-- The expressions of a program are inside its text. -/
theorem inside_of_read (h : read n source = (.ok program, next)) {expr : Expr}
    {around : List Origin} (hspot : ⟨.expr expr, around⟩ ∈ program.spots) :
    expr.span.Inside source := by
  obtain ⟨tokens, hscan, hparse⟩ := read_eq_ok_iff.1 h
  have hfills :=
    Grammar.Declarations.fills (derives_of_parse hparse)
    (Grammar.ordered_of_tokenize hscan)
  obtain ⟨before, ts, after, rfl, hts⟩ :=
    hfills.block_of_hasNode (Program.hasNode_of_mem_spots hspot)
  obtain ⟨hnonempty, hinside, hstart, hstop⟩ := (hts.placed hscan).within
  exact ⟨Nat.le_trans (Nat.le_of_lt hnonempty) hinside, hinside, hstart, hstop⟩

end Source

end Treewalk
