import Treewalk.Proofs.Tree.Grammar

/-!
# Tokens at other places

The grammar asks of a token what it is and never where it stands; places only show in
the tree. So tokens that are derived are derived at any other places too, with the same
numbers (`Derives.respan`).
-/

namespace Treewalk

variable {names : List Name}

namespace Grammar

/-- The same tokens, each at any place. -/
def Respans (ts us : Tokens) : Prop :=
  ts.map (·.node) = us.map (·.node)

namespace Respans

variable {ts ts' us : Tokens} {t : Token} {a b : Span}

private theorem nil_iff : Respans [] us ↔ us = [] :=
  eq_comm.trans List.map_eq_nil_iff

private theorem cons_iff :
    Respans (⟨t, a⟩ :: ts) us ↔ ∃ b vs, us = ⟨t, b⟩ :: vs ∧ Respans ts vs := by
  constructor
  · intro h
    obtain ⟨⟨t', b⟩, vs, rfl, htoken, hrest⟩ := List.map_eq_cons_iff.1 h.symm
    obtain rfl : t' = t := htoken
    exact ⟨b, vs, rfl, hrest.symm⟩
  · rintro ⟨b, vs, rfl, hrest⟩
    exact congrArg (t :: ·) hrest

private theorem append_iff :
    Respans (ts ++ ts') us ↔ ∃ vs vs', us = vs ++ vs' ∧ Respans ts vs ∧
      Respans ts' vs' := by
  unfold Respans
  rw [List.map_append, eq_comm, List.map_eq_append_iff]
  simp only [eq_comm]

private theorem braced_iff :
    Respans (braced a ts b) us ↔ ∃ c vs d, us = braced c vs d ∧ Respans ts vs := by
  simp only [braced, cons_iff, append_iff, nil_iff]
  constructor
  · rintro ⟨c, _, rfl, vs, _, rfl, hbody, d, _, rfl, rfl⟩
    exact ⟨c, vs, d, rfl, hbody⟩
  · rintro ⟨c, vs, d, rfl, hbody⟩
    exact ⟨c, _, rfl, vs, _, rfl, hbody, d, _, rfl, rfl⟩

end Respans

open Respans

/-! ## Expressions -/

mutual

private theorem Phrase.respan {rank : Rank} {ts : Tokens} {n m : NodeId} {e : Expr} :
    Phrase rank ts n e m → ∀ {us}, Respans ts us → ∃ e', Phrase rank us n e' m
  | .assign h, _, hr => by
    simp only [cons_iff] at hr
    obtain ⟨a, _, rfl, b, _, rfl, hr⟩ := hr
    obtain ⟨v, hv⟩ := h.respan hr
    exact ⟨_, .assign hv⟩
  | .set h hv, _, hr => by
    simp only [append_iff, cons_iff] at hr
    obtain ⟨os, _, rfl, ho, a, _, rfl, b, _, rfl, c, _, rfl, hr⟩ := hr
    obtain ⟨object, hobject⟩ := h.respan ho
    obtain ⟨v, hv⟩ := hv.respan hr
    exact ⟨_, .set hobject hv⟩
  | .join ht hleft hright, _, hr => by
    simp only [append_iff, cons_iff] at hr
    obtain ⟨ls, _, rfl, hl, a, _, rfl, hr⟩ := hr
    obtain ⟨left, hleft⟩ := hleft.respan hl
    obtain ⟨right, hright⟩ := hright.respan hr
    exact ⟨_, .join ht hleft hright⟩
  | .unary h, _, hr => by
    simp only [cons_iff] at hr
    obtain ⟨a, _, rfl, hr⟩ := hr
    obtain ⟨e, he⟩ := h.respan hr
    exact ⟨_, .unary he⟩
  | .call h (.closed hargs), _, hr => by
    simp only [append_iff, cons_iff, nil_iff] at hr
    obtain ⟨cs, _, rfl, hc, a, _, rfl, vs, _, rfl, hr, b, _, rfl, rfl⟩ := hr
    obtain ⟨callee, hcallee⟩ := h.respan hc
    obtain ⟨args, hargs⟩ := hargs.respan hr
    exact ⟨_, .call hcallee (.closed hargs)⟩
  | .call h (.last hargs harg), _, hr => by
    simp only [append_iff, cons_iff, nil_iff] at hr
    obtain ⟨cs, _, rfl, hc, a, _, rfl, _, _, rfl, ⟨vs, ws, rfl, hr, hw⟩, b, _, rfl,
      rfl⟩ := hr
    obtain ⟨callee, hcallee⟩ := h.respan hc
    obtain ⟨args, hargs⟩ := hargs.respan hr
    obtain ⟨arg, harg⟩ := harg.respan hw
    exact ⟨_, .call hcallee (.last hargs harg)⟩
  | .get h, _, hr => by
    simp only [append_iff, cons_iff, nil_iff] at hr
    obtain ⟨os, _, rfl, ho, a, _, rfl, b, _, rfl, rfl⟩ := hr
    obtain ⟨object, hobject⟩ := h.respan ho
    exact ⟨_, .get hobject⟩
  | .literal, _, hr => by
    simp only [cons_iff, nil_iff] at hr
    obtain ⟨a, _, rfl, rfl⟩ := hr
    exact ⟨_, .literal⟩
  | .this, _, hr => by
    simp only [cons_iff, nil_iff] at hr
    obtain ⟨a, _, rfl, rfl⟩ := hr
    exact ⟨_, .this⟩
  | .super, _, hr => by
    simp only [cons_iff, nil_iff] at hr
    obtain ⟨a, _, rfl, b, _, rfl, c, _, rfl, rfl⟩ := hr
    exact ⟨_, .super⟩
  | .var, _, hr => by
    simp only [cons_iff, nil_iff] at hr
    obtain ⟨a, _, rfl, rfl⟩ := hr
    exact ⟨_, .var⟩
  | .grouping h, _, hr => by
    simp only [cons_iff, append_iff, nil_iff] at hr
    obtain ⟨a, _, rfl, vs, _, rfl, hr, b, _, rfl, rfl⟩ := hr
    obtain ⟨e, he⟩ := h.respan hr
    exact ⟨_, .grouping he⟩
  | .climb ht h, _, hr => by
    obtain ⟨e, he⟩ := h.respan hr
    exact ⟨_, .climb ht he⟩

private theorem Commaed.respan {ts : Tokens} {n m : NodeId} {args : List Expr} :
    Commaed (Phrase .assignment) ts n args m → ∀ {us}, Respans ts us →
      ∃ args', Commaed (Phrase .assignment) us n args' m
  | .nil, _, hr => by
    obtain rfl := nil_iff.1 hr
    exact ⟨_, .nil⟩
  | .more hargs harg, _, hr => by
    simp only [append_iff, cons_iff, nil_iff] at hr
    obtain ⟨vs, _, rfl, hr, ws, _, rfl, hw, a, _, rfl, rfl⟩ := hr
    obtain ⟨args, hargs⟩ := hargs.respan hr
    obtain ⟨arg, harg⟩ := harg.respan hw
    exact ⟨_, .more hargs harg⟩

end

variable {ts us : Tokens} {n m : NodeId}

private theorem Optional.respan {operand : Option Expr}
    (h : Optional (Phrase .assignment) ts n operand m) (hr : Respans ts us) :
    ∃ operand', Optional (Phrase .assignment) us n operand' m := by
  cases h with
  | none =>
    obtain rfl := nil_iff.1 hr
    exact ⟨_, .none⟩
  | some h =>
    obtain ⟨e, he⟩ := h.respan hr
    exact ⟨_, .some he⟩

/-! ## Names -/

theorem Named.respan {name : Name} (h : Named ts n name m) (hr : Respans ts us) :
    ∃ name', Named us n name' m := by
  cases h with
  | mk =>
    simp only [cons_iff, nil_iff] at hr
    obtain ⟨a, _, rfl, rfl⟩ := hr
    exact ⟨_, .mk⟩

private theorem Commaed.respan_named (h : Commaed Named ts n names m)
    (hr : Respans ts us) :
    ∃ names', Commaed Named us n names' m := by
  induction h generalizing us with
  | nil =>
    obtain rfl := nil_iff.1 hr
    exact ⟨_, .nil⟩
  | more _ hname ih =>
    simp only [append_iff, cons_iff, nil_iff] at hr
    obtain ⟨vs, _, rfl, hr, ws, _, rfl, hw, a, _, rfl, rfl⟩ := hr
    obtain ⟨names, hnames⟩ := ih hr
    obtain ⟨name, hname⟩ := hname.respan hw
    exact ⟨_, .more hnames hname⟩

private theorem Comma.respan_named (h : Comma Named ts n names m) (hr : Respans ts us) :
    ∃ names', Comma Named us n names' m := by
  cases h with
  | closed h =>
    obtain ⟨names, hnames⟩ := h.respan_named hr
    exact ⟨_, .closed hnames⟩
  | last h hname =>
    obtain ⟨vs, ws, rfl, hv, hw⟩ := append_iff.1 hr
    obtain ⟨names, hnames⟩ := h.respan_named hv
    obtain ⟨name, hname⟩ := hname.respan hw
    exact ⟨_, .last hnames hname⟩

private theorem Superclass.respan {superclass : Option Expr}
    (h : Superclass ts n superclass m) (hr : Respans ts us) :
    ∃ superclass', Superclass us n superclass' m := by
  cases h with
  | none =>
    obtain rfl := nil_iff.1 hr
    exact ⟨_, .none⟩
  | some =>
    simp only [cons_iff, nil_iff] at hr
    obtain ⟨a, _, rfl, b, _, rfl, rfl⟩ := hr
    exact ⟨_, .some⟩

/-! ## Statements and declarations -/

mutual

private theorem Declarations.respan {ts : Tokens} {n m : NodeId} {body : List Stmt} :
    Declarations ts n body m → ∀ {us}, Respans ts us → ∃ body', Declarations
      us n body' m
  | .nil, _, hr => by
    obtain rfl := nil_iff.1 hr
    exact ⟨_, .nil⟩
  | .more hbody hs, _, hr => by
    simp only [append_iff] at hr
    obtain ⟨vs, ws, rfl, hr, hw⟩ := hr
    obtain ⟨body, hbody⟩ := hbody.respan hr
    obtain ⟨s, hs⟩ := hs.respan hw
    exact ⟨_, .more hbody hs⟩

private theorem Declaration.respan {ts : Tokens} {n m : NodeId} {s : Stmt} :
    Declaration ts n s m → ∀ {us}, Respans ts us → ∃ s', Declaration us n s' m
  | .function h, _, hr => by
    obtain ⟨decl, hdecl⟩ := h.respan hr
    exact ⟨_, .function hdecl⟩
  | .cls hss hms, _, hr => by
    simp only [cons_iff, append_iff, braced_iff] at hr
    obtain ⟨a, _, rfl, b, _, rfl, ss, _, rfl, hs, c, _, rfl, d, ms, e, rfl, hr⟩ := hr
    obtain ⟨superclass, hss⟩ := hss.respan hs
    obtain ⟨methods, hms⟩ := hms.respan hr
    exact ⟨_, .cls hss hms⟩
  | .statement h, _, hr => by
    obtain ⟨s, hs⟩ := h.respan hr
    exact ⟨_, .statement hs⟩

private theorem FunctionDeclaration.respan {ts : Tokens} {n m : NodeId}
    {decl : FunctionDecl} :
    FunctionDeclaration ts n decl m → ∀ {us}, Respans ts us → ∃ decl',
      FunctionDeclaration us n decl' m
  | .mk hps hbody, _, hr => by
    simp only [cons_iff, append_iff, braced_iff] at hr
    obtain ⟨a, _, rfl, b, _, rfl, c, _, rfl, ps, _, rfl, hp, d, _, rfl, e, _, rfl, f,
      vs, g, rfl, hr⟩ := hr
    obtain ⟨params, hps⟩ := hps.respan_named hp
    obtain ⟨body, hbody⟩ := hbody.respan hr
    exact ⟨_, .mk hps hbody⟩

private theorem Methods.respan {ts : Tokens} {n m : NodeId}
    {methods : List FunctionDecl} :
    Methods ts n methods m → ∀ {us}, Respans ts us → ∃ methods', Methods us n methods' m
  | .nil, _, hr => by
    obtain rfl := nil_iff.1 hr
    exact ⟨_, .nil⟩
  | .more hms hdecl, _, hr => by
    simp only [append_iff] at hr
    obtain ⟨vs, ws, rfl, hr, hw⟩ := hr
    obtain ⟨methods, hms⟩ := hms.respan hr
    obtain ⟨decl, hdecl⟩ := hdecl.respan hw
    exact ⟨_, .more hms hdecl⟩

private theorem Statement.respan {ts : Tokens} {n m : NodeId} {s : Stmt} :
    Statement ts n s m → ∀ {us}, Respans ts us → ∃ s', Statement us n s' m
  | .var, _, hr => by
    simp only [cons_iff, nil_iff] at hr
    obtain ⟨a, _, rfl, b, _, rfl, c, _, rfl, rfl⟩ := hr
    exact ⟨_, .var⟩
  | .varInit h, _, hr => by
    simp only [cons_iff, append_iff, nil_iff] at hr
    obtain ⟨a, _, rfl, b, _, rfl, c, _, rfl, vs, _, rfl, hr, d, _, rfl, rfl⟩ := hr
    obtain ⟨e, he⟩ := h.respan hr
    exact ⟨_, .varInit he⟩
  | .print h, _, hr => by
    simp only [cons_iff, append_iff, nil_iff] at hr
    obtain ⟨a, _, rfl, b, _, rfl, vs, _, rfl, hr, c, _, rfl, d, _, rfl, rfl⟩ := hr
    obtain ⟨operand, hoperand⟩ := h.respan hr
    exact ⟨_, .print hoperand⟩
  | .ret h, _, hr => by
    simp only [cons_iff, append_iff, nil_iff] at hr
    obtain ⟨a, _, rfl, vs, _, rfl, hr, b, _, rfl, rfl⟩ := hr
    obtain ⟨operand, hoperand⟩ := h.respan hr
    exact ⟨_, .ret hoperand⟩
  | .brk, _, hr => by
    simp only [cons_iff, nil_iff] at hr
    obtain ⟨a, _, rfl, b, _, rfl, rfl⟩ := hr
    exact ⟨_, .brk⟩
  | .conditional h, _, hr => by
    obtain ⟨s, hs⟩ := h.respan hr
    exact ⟨_, .conditional hs⟩
  | .loop hcond hbody, _, hr => by
    simp only [cons_iff, append_iff, braced_iff] at hr
    obtain ⟨a, _, rfl, b, _, rfl, vs, _, rfl, hc, c, _, rfl, d, ws, e, rfl, hr⟩ := hr
    obtain ⟨cond, hcond⟩ := hcond.respan hc
    obtain ⟨body, hbody⟩ := hbody.respan hr
    exact ⟨_, .loop hcond hbody⟩
  | .block hbody, _, hr => by
    simp only [braced_iff] at hr
    obtain ⟨a, vs, b, rfl, hr⟩ := hr
    obtain ⟨body, hbody⟩ := hbody.respan hr
    exact ⟨_, .block hbody⟩
  | .expression h, _, hr => by
    simp only [append_iff, cons_iff, nil_iff] at hr
    obtain ⟨vs, _, rfl, hr, a, _, rfl, rfl⟩ := hr
    obtain ⟨e, he⟩ := h.respan hr
    exact ⟨_, .expression he⟩

private theorem Conditional.respan {ts : Tokens} {n m : NodeId} {s : Stmt} :
    Conditional ts n s m → ∀ {us}, Respans ts us → ∃ s', Conditional us n s' m
  | .plain hcond hbody, _, hr => by
    simp only [cons_iff, append_iff, braced_iff] at hr
    obtain ⟨a, _, rfl, b, _, rfl, vs, _, rfl, hc, c, _, rfl, d, ws, e, rfl, hr⟩ := hr
    obtain ⟨cond, hcond⟩ := hcond.respan hc
    obtain ⟨body, hbody⟩ := hbody.respan hr
    exact ⟨_, .plain hcond hbody⟩
  | .otherwise hcond hbody hother, _, hr => by
    simp only [cons_iff, append_iff, braced_iff] at hr
    obtain ⟨a, _, rfl, b, _, rfl, vs, _, rfl, hc, c, _, rfl, _, _, rfl,
      ⟨d, ws, e, rfl, hr⟩, f, _, rfl, g, os, i, rfl, ho⟩ := hr
    obtain ⟨cond, hcond⟩ := hcond.respan hc
    obtain ⟨body, hbody⟩ := hbody.respan hr
    obtain ⟨other, hother⟩ := hother.respan ho
    exact ⟨_, .otherwise hcond hbody hother⟩
  | .chained hcond hbody h, _, hr => by
    simp only [cons_iff, append_iff, braced_iff] at hr
    obtain ⟨a, _, rfl, b, _, rfl, vs, _, rfl, hc, c, _, rfl, _, _, rfl,
      ⟨d, ws, e, rfl, hr⟩, f, os, rfl, ho⟩ := hr
    obtain ⟨cond, hcond⟩ := hcond.respan hc
    obtain ⟨body, hbody⟩ := hbody.respan hr
    obtain ⟨s, hs⟩ := h.respan ho
    exact ⟨_, .chained hcond hbody hs⟩

end

/-- A program at other places is a program. -/
theorem Derives.respan {program : Program} (h : Derives n ts program m)
    (hr : Respans ts us) :
    ∃ program', Derives n us program' m := by
  obtain ⟨body, hbody⟩ := Declarations.respan h hr
  exact ⟨⟨body⟩, hbody⟩

end Grammar

end Treewalk
