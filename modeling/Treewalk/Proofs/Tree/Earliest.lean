import Treewalk.Proofs.Tree.Exact
import Treewalk.Proofs.Tree.Respan
import Treewalk.Source

/-!
# The earliest token to blame

A state of the parser stands for the tokens read so far (`Viable`), and these can always
be completed to a program: what is in focus is completed first, to what the stack of
unfinished constructs awaits (`At.filled`), and then the constructs are closed one after
the other, from the innermost out (`Stands.completes`). So as long as no token is
refused, the tokens read begin some program. A refused token ends this, since the parser
reads from left to right and places do not matter to it.

## Main results

* `Viable.completes`: the tokens read so far begin a program.
* `Reads.not_accepted`: no program begins with tokens that are read and then one that is
  refused.
* `parse_error_earliest`: a parse error is at the first token that no program has there.
-/

namespace Treewalk

open List

open Grammar

variable {firstId next : NodeId} {ts : Tokens} {q : Parser}

/-! ## Tokens that begin a program -/

namespace Grammar

/-- Some tokens after these make a program. -/
def Completes (firstId : NodeId) (ts : Tokens) : Prop :=
  ∃ us body next, Declarations (ts ++ us) firstId body next

theorem Completes.of_append (us : Tokens) (h : Completes firstId (ts ++ us)) :
    Completes firstId ts := by
  obtain ⟨vs, body, next, h⟩ := h
  rw [append_assoc] at h
  exact ⟨us ++ vs, body, next, h⟩

mutual

private theorem Declarations.append {ts us : Tokens} {n m k : NodeId}
    {body body' : List Stmt} (h : Declarations ts n body m) :
    Declarations us m body' k → Declarations (ts ++ us) n (body ++ body') k
  | .nil => by simpa only [append_nil] using h
  | .more hbody hs => by
    rw [← append_assoc, ← append_assoc]
    exact .more (Declarations.append h hbody) hs

theorem Methods.append {ts us : Tokens} {n m k : NodeId}
    {methods methods' : List FunctionDecl} (h : Methods ts n methods m) :
    Methods us m methods' k → Methods (ts ++ us) n (methods ++ methods') k
  | .nil => by simpa only [append_nil] using h
  | .more hmethods hdecl => by
    rw [← append_assoc, ← append_assoc]
    exact .more (Methods.append h hmethods) hdecl

end

end Grammar

namespace Parser

/-- A token that closes a construct; its place does not matter. -/
def closing (t : Token) : Located Token :=
  ⟨t, ⟨0, 0⟩⟩

/-- A body with nothing in it. -/
def emptyBody : Tokens :=
  braced ⟨0, 0⟩ [] ⟨0, 0⟩

/-! ## Filling a hole -/

/-- The tokens are what a stack of unfinished constructs awaits. -/
inductive Hole.Filled : Hole → Tokens → NodeId → NodeId → Prop
  | declaration {ts n body m} : Declarations ts n body m → Filled .declaration ts n m
  | method {ts n methods m} : Methods ts n methods m → Filled .method ts n m
  | branch {ts n s m} : Conditional ts n s m → Filled .branch ts n m
  | phrase {rank start ts n e m} : Phrase rank ts n e m →
      Filled (.phrase rank start) ts n m

section Filled

variable {hole : Hole} {ts : Tokens} {n m : NodeId} {s : Stmt}

private theorem filled_of_declaration (h : Declaration ts n s m) :
    Hole.declaration.Filled ts n m :=
  .declaration (Declarations.nil.more h)

private theorem filled_of_statement (h : Statement ts n s m) :
    Hole.declaration.Filled ts n m :=
  filled_of_declaration (.statement h)

private theorem filled_of_function {decl : FunctionDecl} (hhole : hole.TakesFunction)
    (h : FunctionDeclaration ts n decl m) : hole.Filled ts n m := by
  cases hhole with
  | declaration => exact filled_of_declaration (.function h)
  | method => exact .method (Methods.nil.more h)

theorem filled_of_conditional (hhole : hole.TakesBranch) (h : Conditional ts n s m) :
    hole.Filled ts n m := by
  cases hhole with
  | declaration => exact filled_of_statement (.conditional h)
  | branch => exact .branch h

/-- No stack awaits anything tighter than a unary expression. -/
private theorem Stands.filled {layers : List Layer} {rank tight : Rank}
    {start : Option Nat} {us : Tokens} {e : Expr}
    (hstands : Stands firstId (.phrase rank start) layers us n)
    (h : Phrase tight ts n e m) (hle : Rank.unary.level ≤ tight.level) :
    Hole.Filled (.phrase rank start) ts n m :=
  .phrase (h.loosen (Nat.le_trans hstands.level_le hle))

end Filled

/-! ## Closing the constructs -/

mutual

/-- Once it has what it awaits, a stack of unfinished constructs can be closed. -/
theorem Stands.completes {firstId : NodeId} {hole : Hole} {layers : List Layer}
    {ts us : Tokens} {n m : NodeId} :
    Stands firstId hole layers ts n → hole.Filled us n m → Completes firstId (ts ++ us)
  | .body hopens hbody, .declaration hmore => by
    rw [append_assoc]
    exact hopens.completes (hbody.append hmore)
  | .classBody h hss hms, .method hmore => by
    refine .of_append [closing (.sign .rbrace)] ?_
    simp only [append_assoc, cons_append]
    rw [← append_assoc _ _ [closing _]]
    exact h.completes (filled_of_declaration (.cls hss (hms.append hmore)))
  | .elseIf h hhole hhead, .branch hs => by
    simp only [append_assoc, singleton_append]
    exact h.completes (filled_of_conditional hhole (hhead.chained hs))
  | .varInit h, .phrase he => by
    refine .of_append [closing (.sign .semi)] ?_
    simp only [append_assoc, cons_append, nil_append]
    exact h.completes (filled_of_statement (.varInit he))
  | .printOperand h, .phrase he => by
    refine .of_append [closing (.sign .rparen), closing (.sign .semi)] ?_
    simp only [append_assoc, cons_append, nil_append]
    exact h.completes (filled_of_statement (.print (.some he)))
  | .retOperand h, .phrase he => by
    refine .of_append [closing (.sign .semi)] ?_
    simp only [append_assoc, cons_append, nil_append]
    exact h.completes (filled_of_statement (.ret (.some he)))
  | .branchCond h hhole, .phrase he => by
    refine .of_append (closing (.sign .rparen) :: emptyBody) ?_
    simp only [append_assoc, cons_append, nil_append]
    exact h.completes (filled_of_conditional hhole (.plain he .nil))
  | .loopCond h, .phrase he => by
    refine .of_append (closing (.sign .rparen) :: emptyBody) ?_
    simp only [append_assoc, cons_append, nil_append]
    exact h.completes (filled_of_statement (.loop he .nil))
  | .statement h, .phrase he => by
    refine .of_append [closing (.sign .semi)] ?_
    rw [append_assoc]
    exact h.completes (filled_of_statement (.expression he))
  | .grouping h _, .phrase he => by
    refine .of_append [closing (.sign .rparen)] ?_
    simp only [append_assoc, cons_append, nil_append]
    exact h.completes (h.filled (.grouping he) (by decide))
  | .arguments h hcallee _ hargs, .phrase he => by
    refine .of_append [closing (.sign .rparen)] ?_
    simp only [append_assoc, cons_append]
    rw [← append_assoc _ _ [closing _]]
    exact h.completes (h.filled (.call hcallee (.last hargs he)) (by decide))
  | .assign h _, .phrase he => by
    simp only [append_assoc, cons_append, nil_append]
    exact h.completes (.phrase (.assign he))
  | .set h hobject _, .phrase he => by
    simp only [append_assoc, cons_append, nil_append]
    exact h.completes (.phrase (.set hobject he))
  | .join _ h hle ht hleft _, .phrase he => by
    simp only [append_assoc, cons_append, nil_append]
    exact h.completes (.phrase ((Phrase.join ht hleft he).loosen hle))
  | .unary h _, .phrase he => by
    simp only [append_assoc, cons_append, nil_append]
    exact h.completes (h.filled (.unary he) (by decide))

/-- Once its body is there, an unfinished construct can be closed. -/
private theorem Opens.completes {firstId : NodeId} {collect : List Stmt → Layer}
    {layers : List Layer} {ts us : Tokens} {n m : NodeId} {body : List Stmt} :
    Opens firstId collect layers ts n → Declarations us n body m →
      Completes firstId (ts ++ us)
  | .program, hbody => ⟨[], body, m, by rwa [append_nil]⟩
  | .block h, hbody => by
    refine .of_append [closing (.sign .rbrace)] ?_
    simp only [append_assoc, cons_append, nil_append]
    exact h.completes (filled_of_statement (.block hbody))
  | .functionBody h hhole hps, hbody => by
    refine .of_append [closing (.sign .rbrace)] ?_
    simp only [append_assoc, cons_append, nil_append]
    exact h.completes (filled_of_function hhole (.mk hps hbody))
  | .thenBody h hhole hcond, hbody => by
    refine .of_append [closing (.sign .rbrace)] ?_
    simp only [append_assoc, cons_append, nil_append]
    exact h.completes (filled_of_conditional hhole (.plain hcond hbody))
  | .elseBody h hhole hhead, hbody => by
    refine .of_append [closing (.sign .rbrace)] ?_
    simp only [append_assoc, cons_append, nil_append]
    exact h.completes (filled_of_conditional hhole (hhead.otherwise hbody))
  | .loopBody h hcond, hbody => by
    refine .of_append [closing (.sign .rbrace)] ?_
    simp only [append_assoc, cons_append, nil_append]
    exact h.completes (filled_of_statement (.loop hcond hbody))

end

variable {p : Parser}

/-! ## Completing what is in focus -/

/-- Any name, where one is awaited. -/
def anyName : Located Token :=
  closing (.ident "x")

/-- Any operand, where one is awaited. -/
def anyOperand : Located Token :=
  closing (.word .nil)

theorem anyOperand_phrase (n : NodeId) :
    Phrase .primary [anyOperand] n (.literal ⟨0, 0⟩ .nil) n :=
  @Phrase.literal .nil ⟨0, 0⟩ n

private theorem anyOperand_assignment (n : NodeId) :
    Phrase .assignment [anyOperand] n (.literal ⟨0, 0⟩ .nil) n :=
  (anyOperand_phrase n).loosen (by decide)

/-- The rest of an `if` or `while` from its condition on. -/
def anyCondition : Tokens :=
  closing (.sign .lparen) :: ([anyOperand] ++ closing (.sign .rparen) :: emptyBody)

/-- The end of a function from the parenthesis after its parameters on. -/
def functionEnd : Tokens :=
  closing (.sign .rparen) :: closing (.sign .eq) :: emptyBody

/-- What is in focus can be completed to what the stack awaits. -/
theorem At.filled {focus : Focus} {hole : Hole} {layers : List Layer} {ts us : Tokens}
    {n m : NodeId} (hstands : Stands firstId hole layers us n)
    (h : At focus hole ts n m) : ∃ vs k, hole.Filled (ts ++ vs) n k := by
  cases h with
  | declaration => exact ⟨[], n, .declaration .nil⟩
  | member => exact ⟨[], n, .method .nil⟩
  | operand => exact ⟨[anyOperand], n, hstands.filled (anyOperand_phrase n) (by decide)⟩
  | ident _ => exact ⟨[], n + 1, hstands.filled .var (by decide)⟩
  | called hcallee hargs _ =>
    refine ⟨[], m + 1, ?_⟩
    rw [append_nil]
    exact hstands.filled (.call hcallee hargs) (by decide)
  | complete he _ =>
    refine ⟨[], m, ?_⟩
    rw [append_nil]
    exact hstands.filled he (by decide)
  | propertyName hobject _ =>
    refine ⟨[anyName], m, ?_⟩
    rw [append_assoc]
    exact hstands.filled (.get hobject) (by decide)
  | superDot _ =>
    exact ⟨[closing (.sign .dot), anyName], n, hstands.filled .super (by decide)⟩
  | superName _ => exact ⟨[anyName], n, hstands.filled .super (by decide)⟩
  | funcName hhole =>
    exact ⟨anyName :: closing (.sign .lparen) :: functionEnd, n,
      filled_of_function hhole (.mk (.closed .nil) .nil)⟩
  | funcOpen hhole =>
    exact ⟨closing (.sign .lparen) :: functionEnd, n,
      filled_of_function hhole (.mk (.closed .nil) .nil)⟩
  | param hhole hps =>
    exact ⟨functionEnd, m, filled_of_function hhole (.mk (.closed hps) .nil)⟩
  | paramNext hhole hps =>
    exact ⟨functionEnd, m, filled_of_function hhole (.mk (.last hps .mk) .nil)⟩
  | funcEq hhole hps =>
    refine ⟨closing (.sign .eq) :: emptyBody, m, ?_⟩
    simp only [append_assoc, cons_append, nil_append]
    exact filled_of_function hhole (.mk hps .nil)
  | funcBrace hhole hps =>
    refine ⟨emptyBody, m, ?_⟩
    simp only [append_assoc, cons_append, nil_append]
    exact filled_of_function hhole (.mk hps .nil)
  | className =>
    exact ⟨anyName :: closing (.sign .eq) :: emptyBody, n,
      filled_of_declaration (.cls .none .nil)⟩
  | classNext =>
    exact ⟨closing (.sign .eq) :: emptyBody, n, filled_of_declaration (.cls .none .nil)⟩
  | superclassName =>
    exact ⟨anyName :: closing (.sign .eq) :: emptyBody, n + 1,
      filled_of_declaration (.cls .some .nil)⟩
  | classEq =>
    exact ⟨closing (.sign .eq) :: emptyBody, n + 1,
      filled_of_declaration (.cls .some .nil)⟩
  | classBrace hss =>
    refine ⟨emptyBody, m, ?_⟩
    simp only [append_assoc, cons_append, nil_append]
    exact filled_of_declaration (.cls hss .nil)
  | varName => exact ⟨[anyName, closing (.sign .semi)], n, filled_of_statement .var⟩
  | varNext => exact ⟨[closing (.sign .semi)], n, filled_of_statement .var⟩
  | printOpen =>
    exact ⟨[closing (.sign .lparen), closing (.sign .rparen), closing (.sign .semi)], n,
      filled_of_statement (.print .none)⟩
  | printEnd hoperand =>
    refine ⟨[closing (.sign .semi)], m, ?_⟩
    simp only [append_assoc, cons_append, nil_append]
    exact filled_of_statement (.print hoperand)
  | brkEnd => exact ⟨[closing (.sign .semi)], n, filled_of_statement .brk⟩
  | branchOpen hhole =>
    exact ⟨anyCondition, n,
      filled_of_conditional hhole (.plain (anyOperand_assignment n) .nil)⟩
  | branchBrace hhole hcond =>
    refine ⟨emptyBody, m, ?_⟩
    simp only [append_assoc, cons_append, nil_append]
    exact filled_of_conditional hhole (.plain hcond .nil)
  | branchNext hhole hhead =>
    refine ⟨[], m, ?_⟩
    rw [append_nil]
    exact filled_of_conditional hhole hhead.conditional
  | elseNext hhole hhead =>
    refine ⟨emptyBody, m, ?_⟩
    simp only [append_assoc, cons_append, nil_append]
    exact filled_of_conditional hhole (hhead.otherwise .nil)
  | loopOpen =>
    exact ⟨anyCondition, n, filled_of_statement (.loop (anyOperand_assignment n) .nil)⟩
  | loopBrace hcond =>
    refine ⟨emptyBody, m, ?_⟩
    simp only [append_assoc, cons_append, nil_append]
    exact filled_of_statement (.loop hcond .nil)

/-- The tokens read so far begin a program. -/
theorem Viable.completes {ts : Tokens} (h : Viable firstId p ts) :
    Completes firstId ts := by
  cases h with
  | mk hstands hat hts =>
    obtain ⟨vs, k, hfilled⟩ := hat.filled hstands
    have hall := hstands.completes hfilled
    rw [← append_assoc, ← hts] at hall
    exact hall.of_append vs

/-! ## Where reading stops -/

private theorem Viable.reads {us : Tokens} (h : Viable firstId p ts)
    (hreads : Reads p us q) : Viable firstId q (ts ++ us) := by
  induction hreads generalizing ts with
  | nil => rwa [append_nil]
  | cons hfeed _ ih =>
    rw [append_cons]
    exact ih (h.feed hfeed)

/-- An error is at the first token refused, or at the end of tokens that are all
read. -/
theorem parseFrom_error {stop : Nat} {error : ParseError}
    (h : p.parseFrom stop ts = (.error error, next)) :
    (∃ us token vs q, ts = us ++ token :: vs ∧ error = .unexpectedToken token ∧
      Reads p us q ∧ q.feed token = .error next) ∨
    ∃ stop' q, error = .unexpectedEnd stop' ∧ Reads p ts q ∧ q.finish = none := by
  induction ts generalizing p stop with
  | nil =>
    rw [Parser.parseFrom] at h
    cases hfinish : p.finish with
    | some program =>
      rw [hfinish] at h
      cases h
    | none =>
      rw [hfinish] at h
      cases h
      exact .inr ⟨stop, p, rfl, .nil, hfinish⟩
  | cons token ts ih =>
    rw [Parser.parseFrom] at h
    cases hfeed : p.feed token with
    | error n =>
      rw [hfeed] at h
      cases h
      exact .inl ⟨[], token, ts, p, rfl, rfl, .nil, hfeed⟩
    | ok q =>
      rw [hfeed] at h
      rcases ih h with ⟨us, refused, vs, r, rfl, herror, hreads, hrefused⟩ |
        ⟨stop', r, herror, hreads, hfinish⟩
      · exact .inl
          ⟨token :: us, refused, vs, r, rfl, herror, .cons hfeed hreads, hrefused⟩
      · exact .inr ⟨stop', r, herror, .cons hfeed hreads, hfinish⟩

private theorem Reads.parseFrom_append (h : Reads p ts q) (us : Tokens) (stop : Nat) :
    ∃ stop', p.parseFrom stop (ts ++ us) = q.parseFrom stop' us := by
  induction h generalizing stop with
  | nil => exact ⟨stop, rfl⟩
  | cons hfeed _ ih =>
    obtain ⟨stop', hstop⟩ := ih _
    refine ⟨stop', ?_⟩
    rw [cons_append, Parser.parseFrom, hfeed]
    exact hstop

end Parser

variable {token : Located Token}

/-! ## Errors -/

/-- The parser accepts the tokens. -/
def Accepted (ts : Tokens) : Prop :=
  ∃ firstId program next, parse firstId ts = (.ok program, next)

/-- The first number does not matter. -/
theorem Accepted.parse {ts : Tokens} (h : Accepted ts) (firstId : NodeId) :
    ∃ program next, parse firstId ts = (.ok program, next) := by
  obtain ⟨n, program, next, h⟩ := h
  exact (parse_ok_iff_derivable firstId ts).2 ⟨n, program, next, derives_of_parse h⟩

private theorem Accepted.respan {ts us : Tokens} (h : Accepted ts)
    (hr : Respans ts us) : Accepted us := by
  obtain ⟨n, program, next, h⟩ := h
  obtain ⟨program', h'⟩ := (derives_of_parse h).respan hr
  exact ⟨n, program', next, parse_of_derives h'⟩

private theorem Grammar.Completes.accepted (h : Completes firstId ts) :
    ∃ us, Accepted (ts ++ us) := by
  obtain ⟨us, body, next, h⟩ := h
  exact ⟨us, firstId, ⟨body⟩, next, parse_of_derives h⟩

namespace Parser

/-- No program begins with tokens that are read and then one that is refused. -/
theorem Reads.not_accepted (h : Reads (start firstId) ts q)
    (hrefused : q.feed token = .error next) (us : Tokens) :
    ¬Accepted (ts ++ token :: us) := by
  intro haccepted
  obtain ⟨program, next', hparse⟩ := haccepted.parse firstId
  obtain ⟨stop, hstop⟩ := h.parseFrom_append (token :: us) 0
  rw [parse, hstop, Parser.parseFrom, hrefused] at hparse
  cases hparse

private theorem Reads.not_prefix {us : Tokens} (h : Reads (start firstId) ts q)
    (hrefused : q.feed token = .error next) (haccepted : Accepted us) :
    ¬(ts ++ [token]).map (·.node) <+: us.map (·.node) := by
  rintro ⟨rest, hrest⟩
  obtain ⟨vs, ws, rfl, hvs, -⟩ := map_eq_append_iff.1 hrest.symm
  -- The accepted tokens stay accepted when the first of them are put where the tokens
  -- read stand.
  have hr : Respans (vs ++ ws) (ts ++ token :: ws) := by
    rw [Respans, map_append, hvs, ← map_append, append_assoc]
    rfl
  exact h.not_accepted hrefused ws (haccepted.respan hr)

end Parser

/-- **Parse errors are at the earliest possible token.** If a token is blamed, the
tokens before it begin some program that the parser accepts, no program begins with them
and this token, wherever its tokens stand, and the error is at the place of the token.
If the end is blamed, all tokens together properly begin some program and are none
themselves. -/
theorem parse_error_earliest {firstId next : NodeId} {ts : Tokens} {error : ParseError}
    (h : parse firstId ts = (.error error, next)) :
    (∃ k token, error = .unexpectedToken token ∧ ts[k]? = some token ∧
      error.toError.span? = some token.span ∧
      (∃ us, Accepted us ∧ ts.take k <+: us) ∧
      ∀ us, Accepted us → ¬(ts.take (k + 1)).map (·.node) <+: us.map (·.node)) ∨
    ∃ stop, error = .unexpectedEnd stop ∧
      (∃ us, Accepted us ∧ ts <+: us ∧ ts ≠ us) ∧
      ∀ us, us.map (·.node) = ts.map (·.node) → ¬Accepted us := by
  rcases Parser.parseFrom_error h
    with ⟨before, token, after, q, rfl, rfl, hreads, hrefused⟩ | ⟨stop, q, rfl,
      hreads, hfinish⟩
  · refine .inl ⟨before.length, token, rfl, by simp, rfl, ?_, ?_⟩
    · obtain ⟨us, hus⟩ := (Parser.Viable.start.reads hreads).completes.accepted
      refine ⟨_, hus, ?_⟩
      rw [take_left]
      exact prefix_append before us
    · intro us haccepted hprefix
      have htake : (before ++ token :: after).take (before.length + 1) =
          before ++ [token] := by
        rw [append_cons, take_left' (by simp)]
      rw [htake] at hprefix
      exact hreads.not_prefix hrefused haccepted hprefix
  · have hnot : ¬Accepted ts := by
      intro haccepted
      obtain ⟨program, next', hparse⟩ := haccepted.parse firstId
      rw [h] at hparse
      cases hparse
    refine .inr ⟨stop, rfl, ?_, fun us hsame haccepted => hnot (haccepted.respan hsame)⟩
    obtain ⟨us, hus⟩ := (Parser.Viable.start.reads hreads).completes.accepted
    refine ⟨_, hus, prefix_append ts us, fun hsame => hnot ?_⟩
    rw [hsame]
    exact hus

/-- `a.b = c + d = 3;`, where the second `=` has the operand of an operator before
it. -/
def assignedSum : Tokens :=
  [⟨.ident "a", ⟨0, 1⟩⟩, ⟨.sign .dot, ⟨1, 2⟩⟩, ⟨.ident "b", ⟨2, 3⟩⟩,
    ⟨.sign .eq, ⟨4, 5⟩⟩, ⟨.ident "c", ⟨6, 7⟩⟩, ⟨.sign .plus, ⟨8, 9⟩⟩,
    ⟨.ident "d", ⟨10, 11⟩⟩, ⟨.sign .eq, ⟨12, 13⟩⟩, ⟨.number 3, ⟨14, 15⟩⟩,
    ⟨.sign .semi, ⟨15, 16⟩⟩]

theorem parse_error_earliest_assignedSum :
    parse 0 assignedSum = (.error (.unexpectedToken ⟨.sign .eq, ⟨12, 13⟩⟩), 2) ∧
      (∃ us, Accepted us ∧ assignedSum.take 7 <+: us) ∧
      (∀ us, Accepted us → ¬(assignedSum.take 8).map (·.node) <+: us.map (·.node)) ∧
      parse 0 (assignedSum.take 6) = (.error (.unexpectedEnd 9), 2) ∧
      ∃ us, Accepted us ∧ assignedSum.take 6 <+: us ∧ assignedSum.take 6 ≠ us := by
  have hparse : parse 0 assignedSum =
    (.error (.unexpectedToken ⟨.sign .eq, ⟨12, 13⟩⟩), 2) := rfl
  have hparse' : parse 0 (assignedSum.take 6) = (.error (.unexpectedEnd 9), 2) := rfl
  have hplace : ∀ k < 10, assignedSum[k]? = some ⟨.sign .eq, ⟨12, 13⟩⟩ → k = 7 := by
    decide
  rcases parse_error_earliest hparse
    with ⟨k, token, herror, htoken, -, hbefore, hafter⟩ | ⟨stop, herror, -⟩
  · obtain rfl := ParseError.unexpectedToken.inj herror
    obtain ⟨hk, -⟩ := List.getElem?_eq_some_iff.1 htoken
    obtain rfl := hplace k hk htoken
    rcases parse_error_earliest hparse' with ⟨_, _, herror', -⟩ | ⟨stop, -, hend, -⟩
    · cases herror'
    · exact ⟨hparse, hbefore, hafter, hparse', hend⟩
  · cases herror

end Treewalk
