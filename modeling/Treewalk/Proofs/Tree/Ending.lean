import Treewalk.Proofs.Tree.Earliest

/-!
# How expressions and statements end

A declaration or statement ends with a semicolon or a closing brace, an expression never
does. So the tokens of an expression are no program, and since they begin one, namely
that of the expression as a statement, it is the end of the tokens that is blamed
(`parse_phrase`).
-/

namespace Treewalk

variable {ts : Tokens} {n m : NodeId} {e : Expr} {s : Stmt} {body : List Stmt}

namespace Grammar

/-- The tokens with which declarations and statements end. -/
def enders : List Token :=
  [.sign .semi, .sign .rbrace]

/-! ## Last tokens -/

/-- The last token has the property. -/
def LastIs (P : Token → Prop) (ts : Tokens) : Prop :=
  ∃ before t, ts = before ++ [t] ∧ P t.node

namespace LastIs

variable {P : Token → Prop} {ts : Tokens}

private theorem single {t : Token} (h : P t) (a : Span) : LastIs P [⟨t, a⟩] :=
  ⟨[], _, rfl, h⟩

private theorem append (h : LastIs P ts) (us : Tokens) : LastIs P (us ++ ts) := by
  obtain ⟨before, t, rfl, ht⟩ := h
  exact ⟨us ++ before, t, by rw [List.append_assoc], ht⟩

private theorem cons (h : LastIs P ts) (t : Located Token) : LastIs P (t :: ts) :=
  h.append [t]

private theorem not_last (h : LastIs (fun t => ¬P t) ts) : ¬LastIs P ts := by
  rintro ⟨before, t, rfl, ht⟩
  obtain ⟨before', t', heq, ht'⟩ := h
  obtain ⟨-, hlast⟩ := List.append_inj' heq rfl
  cases hlast
  exact ht' ht

end LastIs

theorem Phrase.last {rank : Rank} {ts : Tokens} {n m : NodeId} {e : Expr} :
    Phrase rank ts n e m → LastIs (· ∉ enders) ts
  | .assign h => (h.last.cons _).cons _
  | .set _ h => ((h.last.cons _).cons _).cons _ |>.append _
  | .join _ _ h => (h.last.cons _).append _
  | .unary h => h.last.cons _
  | .call _ _ => ((LastIs.single (by decide) _).append _).cons _ |>.append _
  | .get _ => ((LastIs.single (by simp [enders]) _).cons _).append _
  | @Phrase.literal v _ _ =>
    .single (by rcases v with _ | _ | (_ | _) | _ <;> simp [enders, Literal.token]) _
  | .this => .single (by decide) _
  | .super => ((LastIs.single (by simp [enders]) _).cons _).cons _
  | .var => .single (by simp [enders]) _
  | .grouping _ => ((LastIs.single (by decide) _).append _).cons _
  | .climb _ h => h.last

private theorem last_semi (a : Span) : LastIs (· ∈ enders) [⟨.sign .semi, a⟩] :=
  .single (by decide) a

private theorem last_braced (a : Span) (ts : Tokens) (b : Span) :
    LastIs (· ∈ enders) (braced a ts b) :=
  ((LastIs.single (by decide) b).append ts).cons _

private theorem Conditional.last (h : Conditional ts n s m) :
    LastIs (· ∈ enders) ts := by
  -- one `if` after the other, and what is left gets shorter
  induction hlength : ts.length using Nat.strongRecOn generalizing ts n s m with
  | ind k ih =>
    subst hlength
    cases h with
    | plain _ _ => exact (((last_braced _ _ _).cons _).append _).cons _ |>.cons _
    | otherwise _ _ _ =>
      exact ((((last_braced _ _ _).cons _).append _).cons _).append _ |>.cons
        _ |>.cons _
    | chained _ _ h =>
      have hlast := ih _ (by simp; omega) h rfl
      exact (((hlast.cons _).append _).cons _).append _ |>.cons _ |>.cons _

private theorem Statement.last (h : Statement ts n s m) : LastIs (· ∈ enders) ts := by
  cases h with
  | var => exact ((last_semi _).cons _).cons _
  | varInit _ => exact ((last_semi _).append _).cons _ |>.cons _ |>.cons _
  | print _ => exact (((last_semi _).cons _).append _).cons _ |>.cons _
  | ret _ => exact ((last_semi _).append _).cons _
  | brk => exact (last_semi _).cons _
  | conditional h => exact h.last
  | loop _ _ => exact (((last_braced _ _ _).cons _).append _).cons _ |>.cons _
  | block _ => exact last_braced _ _ _
  | expression _ => exact (last_semi _).append _

private theorem Declaration.last (h : Declaration ts n s m) :
    LastIs (· ∈ enders) ts := by
  cases h with
  | function h =>
    cases h with
    | mk _ _ =>
      exact ((((last_braced _ _ _).cons _).cons _).append _).cons _ |>.cons _ |>.cons _
  | cls _ _ => exact (((last_braced _ _ _).cons _).append _).cons _ |>.cons _
  | statement h => exact h.last

private theorem Declarations.last (h : Declarations ts n body m) (hne : ts ≠ []) :
    LastIs (· ∈ enders) ts := by
  cases h with
  | nil => exact absurd rfl hne
  | more _ hs => exact hs.last.append _

/-! ## One expression -/

private theorem Declarations.of_nil (h : Declarations ts n body m) (hbody : body = []) :
    ts = [] ∧ n = m := by
  cases h with
  | nil => exact ⟨rfl, rfl⟩
  | more _ _ => simp at hbody

private theorem Declarations.of_singleton (h : Declarations ts n body m)
    (hbody : body = [s]) : Declaration ts n s m := by
  cases h with
  | nil => cases hbody
  | more hbefore hs =>
    obtain ⟨hnil, hlast⟩ :=
      List.append_eq_singleton_iff.1 hbody |>.resolve_right (by simp)
    obtain ⟨rfl, rfl⟩ := hbefore.of_nil hnil
    cases hlast
    exact hs

private theorem Declaration.of_expression {span : Span} (h : Declaration ts n s m)
    (hs : s = .expression span e) :
    ∃ us a, ts = us ++ [⟨.sign .semi, a⟩] ∧ Phrase .assignment us n e m := by
  cases h with
  | function _ => cases hs
  | cls _ _ => cases hs
  | statement h =>
    cases h with
    | expression h =>
      cases hs
      exact ⟨_, _, rfl, h⟩
    | conditional h => cases h <;> cases hs
    | _ => cases hs

/-- What is in front of the last token of a statement that is an expression. -/
theorem Derives.phrase {t : Located Token} {program : Program} {span : Span}
    (h : Derives n (ts ++ [t]) program m)
    (hone : program.stmts = [.expression span e]) : Phrase .assignment ts n e m := by
  obtain ⟨us, a, hts, he⟩ := (Declarations.of_singleton h hone).of_expression rfl
  obtain ⟨rfl, -⟩ := List.append_inj' hts rfl
  exact he

theorem Phrase.derives (h : Phrase .assignment ts n e m) (a : Span) :
    Derives n (ts ++ [⟨.sign .semi, a⟩]) ⟨[.expression ⟨startOf ts, a.stop⟩ e]⟩ m :=
  Declarations.nil.more (.statement (.expression h))

end Grammar

open Grammar

/-! ## Tokens without an end -/

/-- Where the end is blamed, it is the end of the last token. -/
private theorem Parser.stop_of_unexpectedEnd {p : Parser} {stop stop' : Nat}
    {next : NodeId} (h : p.parseFrom stop ts = (.error (.unexpectedEnd stop'), next)) :
    stop' = (ts.getLast?.map fun t => t.span.stop).getD stop := by
  induction ts generalizing p stop with
  | nil =>
    rw [Parser.parseFrom] at h
    cases hfinish : p.finish with
    | some program =>
      rw [hfinish] at h
      cases h
    | none =>
      rw [hfinish] at h
      cases h
      rfl
  | cons token ts ih =>
    rw [Parser.parseFrom] at h
    cases hfeed : p.feed token with
    | error n =>
      rw [hfeed] at h
      cases h
    | ok q =>
      rw [hfeed] at h
      rw [ih h]
      cases hlast : ts.getLast? with
      | none =>
        obtain rfl := List.getLast?_eq_none_iff.1 hlast
        rfl
      | some last => rw [List.getLast?_cons, hlast]; rfl

/-- Of the tokens of an expression, the end is blamed. -/
theorem parse_phrase (h : Phrase .assignment ts n e m) (firstId : NodeId) :
    ∃ next, parse firstId ts = (.error (.unexpectedEnd (stopOf ts)), next) := by
  have haccepted : Accepted (ts ++ [⟨.sign .semi, ⟨0, 0⟩⟩]) :=
    ⟨n, _, m, parse_of_derives (h.derives ⟨0, 0⟩)⟩
  generalize hparse : parse firstId ts = result
  obtain ⟨result, next⟩ := result
  refine ⟨next, ?_⟩
  cases result with
  | ok program =>
    have hderives : Declarations ts firstId program.stmts next :=
      derives_of_parse hparse
    exact absurd (hderives.last h.ne_nil) h.last.not_last
  | error error =>
    rcases Parser.parseFrom_error hparse
      with ⟨us, token, vs, q, rfl, -, hreads, hrefused⟩ | ⟨stop, q, rfl, -, -⟩
    · rw [List.append_assoc] at haccepted
      exact absurd haccepted (hreads.not_accepted hrefused _)
    · rw [Parser.stop_of_unexpectedEnd hparse]
      rfl

end Treewalk
