import Mathlib.Data.List.DropRight
import Treewalk.Command.Prompt
import Treewalk.Proofs.Session.History
import Treewalk.Proofs.Token.Lookahead
import Treewalk.Proofs.Tree.Ending

/-!
# Semicolons at the prompt

The prompt looks at the last character of a line to tell whether a semicolon is missing,
and puts the semicolon at the end of the line. Of a line that is an expression, all
depends on what stands at its end. If it is the last token of the expression, the line
is completed to the text that has the semicolon there, and the two are one request. If
it is a comment, the semicolon becomes part of the comment, or is not added at all
because the comment ends like a statement: the text has no end, and nothing is run. With
a semicolon right after the last token, the comment does no harm.

* `Prompt.semicolon_supplied` — which lines may do without a semicolon.
* `Prompt.semicolon_lost` — a line that may not.
-/

namespace Treewalk.Prompt

open List

open Grammar
open Text (isSpace)
open scoped Computability

variable {line : String} {c : Char} {w : List Char} {tokens : Tokens}

/-! ## Lines -/

/-- A character put into a text after that many bytes. -/
def inserted (c : Char) : Nat → List Char → List Char
  | 0, text => c :: text
  | _ + 1, [] => [c]
  | n + 1, d :: text => d :: inserted c (n + 1 - d.utf8Size) text

/-- The line with a semicolon right after the last of its tokens. -/
def ended (line : String) (tokens : Tokens) : String :=
  String.ofList (inserted ';' (stopOf tokens) line.toList)

private theorem inserted_append (c : Char) (before after : List Char) :
    inserted c (size before) (before ++ after) = before ++ c :: after := by
  induction before with
  | nil =>
    have hzero : size [] = 0 := by rw [← byteLength_eq_size]; rfl
    rw [hzero, nil_append, inserted, nil_append]
  | cons d before ih =>
    have hsize : size (d :: before) = d.utf8Size + size before := by
      rw [← byteLength_eq_size, byteLength_cons, byteLength_eq_size]
    obtain ⟨k, hk⟩ : ∃ k, size (d :: before) = k + 1 :=
      Nat.exists_eq_succ_of_ne_zero (Nat.ne_of_gt (size_pos (cons_ne_nil d before)))
    have hrest : k + 1 - d.utf8Size = size before := by omega
    rw [hk, cons_append, inserted, hrest, ih]
    rfl

/-- A line is trimmed if it neither starts nor ends with a blank. -/
private theorem trimmed_eq_self_iff : trimmed line = line ↔
    (∀ c, line.toList.head? = some c → isSpace c = false) ∧
      ∀ c, line.toList.getLast? = some c → isSpace c = false := by
  have htrimmed : trimmed line = line ↔
      (line.toList.dropWhile isSpace).rdropWhile isSpace = line.toList := by
    rw [← String.toList_inj, trimmed, String.toList_ofList]
    rfl
  have hhead : line.toList.dropWhile isSpace = line.toList ↔
      ∀ c, line.toList.head? = some c → isSpace c = false := by
    rw [dropWhile_eq_self_iff]
    cases line.toList <;> simp
  have hlast : line.toList.rdropWhile isSpace = line.toList ↔
      ∀ c, line.toList.getLast? = some c → isSpace c = false := by
    rw [rdropWhile_eq_self_iff]
    cases hchars : line.toList.getLast? with
    | none => simp [List.getLast?_eq_none_iff.1 hchars]
    | some c =>
      have hne : line.toList ≠ [] := fun hnil => by simp [hnil] at hchars
      rw [List.getLast?_eq_some_getLast hne] at hchars
      simp [hne, Option.some.inj hchars]
  rw [htrimmed, ← hhead, ← hlast]
  constructor
  · intro h
    have hle :=
      ( rdropWhile_prefix isSpace (l := line.toList.dropWhile isSpace)).length_le
    have hdrop : line.toList.dropWhile isSpace = line.toList :=
      (dropWhile_suffix isSpace).eq_of_length_le (by rw [h] at hle; exact hle)
    rw [hdrop] at h
    exact ⟨hdrop, h⟩
  · rintro ⟨hdrop, hrdrop⟩
    rw [hdrop, hrdrop]

private theorem isSpace_of_isBlank (h : isBlank c = true) : isSpace c = true := by
  simp only [isBlank, Bool.or_eq_true, decide_eq_true_eq] at h
  rcases h with ((rfl | rfl) | rfl) | rfl <;> decide

private theorem ofLine_of_trimmed (htrimmed : trimmed line = line) (hne : line ≠ "")
    (hcolon : line.toList.head? ≠ some ':') :
    Request.ofLine line = .source (completed line) := by
  simp only [Request.ofLine, htrimmed]
  split
  · rename_i hnil
    exact absurd (String.toList_inj.1 hnil) hne
  · rename_i hcons
    exact absurd (by rw [hcons]; rfl) hcolon
  · rfl

private theorem completed_of_ender (hlast : line.toList.getLast? = some c)
    (hc : c = ';' ∨ c = '\x7d') :
    completed line = line := by
  unfold completed
  rw [hlast]
  rcases hc with rfl | rfl <;> rfl

theorem completed_of_not_ender
    (h : ∀ c, line.toList.getLast? = some c → c ≠ ';' ∧ c ≠ '\x7d') :
    completed line = line ++ ";" := by
  unfold completed
  split
  · rename_i hlast
    exact absurd rfl (h ';' hlast).1
  · rename_i hlast
    exact absurd rfl (h '\x7d' hlast).2
  · rfl

private theorem completed_cases (line : String) :
    completed line = line ∨ completed line = line ++ ";" := by
  unfold completed
  split
  · exact .inl rfl
  · exact .inl rfl
  · exact .inr rfl

/-! ## The end of a line -/

/-- The last token of a line, in front of blanks and comments. -/
structure Parts (line : String) (tokens : Tokens) (before : List Lexeme) (last : Lexeme)
    (gaps : List Lexeme) : Prop where
  split : Split line.toList (before ++ [last] ++ gaps) []
  isToken : ∃ t, last.token? = some t
  areGaps : ∀ gap ∈ gaps, gap.token? = none
  tokens : tokens = placed 0 (before ++ [last])

private theorem exists_parts (h : tokenize line = .ok tokens) (hne : tokens ≠ []) :
    ∃ before last gaps, Parts line tokens before last gaps := by
  cases scanned_tokenize.1 h with
  | ok split =>
    obtain ⟨before, last, t, gaps, rfl, ht, hgaps⟩ := exists_last_token hne
    refine ⟨before, last, gaps, split, ⟨t, ht⟩, hgaps, ?_⟩
    rw [placed_append, placed_eq_nil_iff.2 hgaps, append_nil]

/-- Reading a text that is split. -/
theorem tokenize_of_split {text : List Char} {ls : List Lexeme} (h : Split text ls []) :
    tokenize (String.ofList text) = .ok (placed 0 ls) := by
  rw [scanned_tokenize, String.toList_ofList]
  exact .ok h

/-- The last character of a run is of its class. -/
theorem class_of_last {p q : Char → Bool} (h : w ∈ oneOf p * (oneOf q)∗)
    (hlast : w.getLast? = some c) :
    p c = true ∨ q c = true := by
  obtain ⟨first, rest, rfl, hfirst, hrest⟩ := mem_oneOf_mul_kstar.1 h
  rcases mem_cons.1 (mem_of_getLast? hlast) with rfl | hmem
  · exact .inl hfirst
  · exact .inr (hrest c hmem)

namespace Parts

variable {line : String} {tokens : Tokens} {before gaps : List Lexeme} {last : Lexeme}

variable (h : Parts line tokens before last gaps)

include h

private theorem text : line.toList = covered (before ++ [last]) ++ covered gaps := by
  rw [← covered_append, ← h.split.append, append_nil]

private theorem tokenize_eq : tokenize line = .ok tokens := by
  have htokens := tokenize_of_split h.split
  rwa [String.ofList_toList, placed_append, placed_eq_nil_iff.2 h.areGaps, append_nil,
    ← h.tokens] at htokens

private theorem exists_last : ∃ t text, last.At text ∧ last.token? = some t ∧
    tokens = placed 0 before ++
      [⟨t, ⟨size (covered before), size (covered (before ++ [last]))⟩⟩] := by
  obtain ⟨t, ht⟩ := h.isToken
  obtain ⟨_, hfront, -⟩ := h.split.of_append
  obtain ⟨_, -, hlast⟩ := hfront.of_append
  cases hlast with
  | next first _ =>
    refine ⟨t, _, first, ht, ?_⟩
    rw [h.tokens, placed_append, Nat.zero_add, covered_concat, size_append, placed, ht]
    rfl

theorem stopOf_eq : stopOf tokens = size (covered (before ++ [last])) := by
  obtain ⟨t, _, -, -, htokens⟩ := h.exists_last
  rw [htokens, stopOf_append_cons, stopOf_singleton]

theorem toList_ended :
    (ended line tokens).toList = covered (before ++ [last]) ++ ';' :: covered gaps := by
  rw [ended, String.toList_ofList, h.text, h.stopOf_eq, inserted_append]

/-- A semicolon right after the last token is one token more, whatever blanks and
comments follow. -/
private theorem tokenize_ended :
    tokenize (ended line tokens) =
      .ok (tokens ++ [⟨.sign .semi, ⟨stopOf tokens, stopOf tokens + 1⟩⟩]) := by
  obtain ⟨t, ht⟩ := h.isToken
  obtain ⟨after, hfront, hafter⟩ := h.split.of_append
  obtain ⟨p, hsemi⟩ := Lexeme.exists_semicolon after
  have hone : size [';'] = 1 := by rw [← byteLength_eq_size]; rfl
  have hsplit := (hfront.semicolon ht after).trans (.next hsemi hafter)
  have htext : ended line tokens =
      String.ofList (covered (before ++ [last]) ++ ';' :: after) := by
    rw [← String.ofList_toList (s := ended line tokens), h.toList_ended,
      ← hafter.append, append_nil]
  rw [htext, tokenize_of_split hsplit, placed_append, ← h.tokens, placed,
    placed_eq_nil_iff.2 h.areGaps, Nat.zero_add, ← h.stopOf_eq, hone]
  rfl

omit h in
private theorem comment
    (h : Parts line tokens before last (gaps ++ [⟨.comment, w, none⟩])) :
    Parts (line ++ ";") tokens before last
      (gaps ++ [⟨.comment, w ++ [';'], none⟩]) where
  split := by
    have hsplit := h.split
    rw [← append_assoc] at hsplit ⊢
    rw [String.toList_append]
    exact hsplit.comment
  isToken := h.isToken
  areGaps gap hgap := by
    rcases mem_append.1 hgap with hgap | hgap
    · exact h.areGaps gap (mem_append_left _ hgap)
    · rw [mem_singleton.1 hgap]
  tokens := h.tokens

theorem ended_append : ended (line ++ ";") tokens = ended line tokens ++ ";" := by
  rw [← String.toList_inj, String.toList_append, h.toList_ended, ended,
    String.toList_ofList, String.toList_append, h.text, h.stopOf_eq, append_assoc,
    inserted_append, append_assoc]
  rfl

/-- Where the line is trimmed, it stays so. -/
theorem trimmed_ended (htrimmed : trimmed line = line) :
    trimmed (ended line tokens) = ended line tokens ∧ (ended line tokens).toList.head? =
      line.toList.head? := by
  obtain ⟨_, _, hat, -⟩ := h.exists_last
  obtain ⟨c, rest, hfront⟩ : ∃ c rest, covered (before ++ [last]) = c :: rest := by
    refine exists_cons_of_ne_nil ?_
    rw [covered_concat]
    exact append_ne_nil_of_right_ne_nil _ hat.chars_ne_nil
  have hhead : (ended line tokens).toList.head? = line.toList.head? := by
    rw [h.toList_ended, h.text, hfront]
    rfl
  refine ⟨trimmed_eq_self_iff.2 ⟨?_, fun c hc => ?_⟩, hhead⟩
  · rw [hhead]
    exact (trimmed_eq_self_iff.1 htrimmed).1
  · rw [h.toList_ended, List.getLast?_append] at hc
    cases hgap : (covered gaps).getLast? with
    | none =>
      rw [List.getLast?_cons, hgap] at hc
      cases hc
      decide
    | some d =>
      rw [List.getLast?_cons, hgap] at hc
      refine (trimmed_eq_self_iff.1 htrimmed).2 c ?_
      rw [h.text, List.getLast?_append, hgap]
      exact hc

/-- After the last token of a trimmed line there is nothing, or a comment at the end. -/
private theorem gaps_cases (htrimmed : trimmed line = line) :
    gaps = [] ∨ ∃ others w, gaps = others ++ [⟨.comment, w, none⟩] ∧
      w ∈ Pattern.comment.language := by
  rcases eq_nil_or_concat' gaps with hnil | ⟨others, gap, rfl⟩
  · exact .inl hnil
  · obtain ⟨pattern, w, token?⟩ := gap
    obtain rfl : token? = none :=
      h.areGaps ⟨pattern, w, token?⟩ (mem_append_right _ mem_cons_self)
    obtain ⟨_, -, hgaps⟩ := h.split.of_append
    obtain ⟨_, -, hlast⟩ := hgaps.of_append
    cases hlast with
    | next first _ =>
      have hfits : w ∈ pattern.language := first.longest.fits
      have hmeans : Means pattern w none := first.means
      cases hmeans with
      | comment => exact .inr ⟨others, w, rfl, hfits⟩
      | blanks =>
        -- The line would end with a blank.
        obtain ⟨c, hc⟩ : ∃ c, w.getLast? = some c :=
          ⟨_, List.getLast?_eq_some_getLast first.chars_ne_nil⟩
        have htext : line.toList.getLast? = some c := by
          rw [h.text, covered_concat others, ← append_assoc, List.getLast?_append, hc]
          rfl
        have hblank :=
          (class_of_last hfits hc).elim isSpace_of_isBlank isSpace_of_isBlank
        rw [(trimmed_eq_self_iff.1 htrimmed).2 c htext] at hblank
        cases hblank

end Parts

/-- No token but a semicolon or a closing brace ends like one. -/
private theorem last_char_of_not_ender {l : Lexeme} {t : Token} {text : List Char}
    (h : l.At text) (htoken : l.token? = some t) (ht : t ∉ enders) :
    ∀ c, l.chars.getLast? = some c → c ≠ ';' ∧ c ≠ '\x7d' := by
  obtain ⟨pattern, w, token?⟩ := l
  obtain rfl : token? = some t := htoken
  have hfits := h.longest.fits
  have hmeans : Means pattern w (some t) := h.means
  intro c hc
  have hclasses : isDecimal ';' = false ∧ isDecimal '\x7d' = false ∧
    isWordStart ';' = false ∧
      isWordStart '\x7d' = false ∧ isWordPart ';' = false ∧
      isWordPart '\x7d' = false := by decide
  cases hmeans with
  | word =>
    have hword := class_of_last (Pattern.ident_of_word hfits) hc
    constructor <;> (rintro rfl; simp [hclasses] at hword)
  | number =>
    have hdigit := class_of_last hfits hc
    constructor <;> (rintro rfl; simp [hclasses] at hdigit)
  | ident =>
    have hword := class_of_last hfits hc
    constructor <;> (rintro rfl; simp [hclasses] at hword)
  | string =>
    rw [List.getLast?_concat] at hc
    cases hc
    decide
  | @sign _ s =>
    obtain rfl : w = s.text.toList := hfits
    cases s <;> first | exact absurd (by decide) ht | (cases hc; decide)

/-! ## Reading -/

/-- Entering the text evaluates the expression, with the numbers that are next. -/
def Evaluates (text : String) (expr : Expr) : Prop :=
  ∀ session : Session, ∃ program next found, Source.read session.nextId text =
    (.ok program, next) ∧ Task.ofLine program = .evaluate found ∧
    found.unnumbered = expr.unnumbered

/-- Entering the text runs nothing: it ends too early, after that many bytes. -/
def Unended (text : String) (stop : Nat) : Prop :=
  ∀ (session : Session) (limit : Nat) (host : Host), ∃ next,
    session.submit limit host Task.ofLine text = some ({ session with nextId := next },
      .error (ParseError.unexpectedEnd stop).toError, "")

theorem evaluates_of_tokenize {text : String} {a : Span} {n m : NodeId} {expr : Expr}
    (h : Phrase .assignment tokens n expr m)
    (htext : tokenize text = .ok (tokens ++ [⟨.sign .semi, a⟩])) :
    Evaluates text expr := by
  intro session
  obtain ⟨found, next, hfound, hsame⟩ := h.renumber session.nextId
  exact ⟨_, next, found,
    Source.read_eq_ok_iff.2 ⟨_, htext, parse_of_derives (hfound.derives a)⟩, rfl, hsame⟩

private theorem unended_of_tokenize {text : String} {n m : NodeId} {expr : Expr}
    (h : Phrase .assignment tokens n expr m) (htext : tokenize text = .ok tokens) :
    Unended text (stopOf tokens) := by
  intro session limit host
  obtain ⟨next, hparse⟩ := parse_phrase h session.nextId
  refine ⟨next, ?_⟩
  simp only [Session.submit, Session.prepare, Source.read, htext, hparse]

/-- The line ends with a comment that starts after that many bytes or later. -/
def EndsInComment (line : String) (stop : Nat) : Prop :=
  ∃ before comment, line.toList = before ++ comment ∧
    comment ∈ Pattern.comment.language ∧ stop ≤ size before

section

variable {line : String} {tokens : Tokens} {before gaps : List Lexeme} {last : Lexeme}
  {n m : NodeId} {expr : Expr} (hphrase : Phrase .assignment tokens n expr m)

include hphrase

/-- A line that ends with the last token of an expression is completed by the semicolon
that it lacks. -/
theorem Parts.completed_eq (h : Parts line tokens before last []) :
    completed line = ended line tokens ∧
      completed (ended line tokens) = ended line tokens := by
  obtain ⟨t, _, hat, ht, hplaced⟩ := h.exists_last
  have hline : line.toList = covered (before ++ [last]) := h.text.trans (append_nil _)
  -- No expression ends like a statement.
  have hender : t ∉ enders := by
    obtain ⟨_, t', heq, ht'⟩ := hphrase.last
    obtain ⟨-, hsame⟩ := append_inj' (hplaced.symm.trans heq) rfl
    cases hsame
    exact ht'
  have htext : ended line tokens = line ++ ";" := by
    rw [← String.toList_inj, String.toList_append, h.toList_ended, hline]
    rfl
  constructor
  · rw [htext]
    refine completed_of_not_ender fun c hc => last_char_of_not_ender hat ht hender c ?_
    obtain ⟨d, hd⟩ : ∃ d, last.chars.getLast? = some d :=
      ⟨_, List.getLast?_eq_some_getLast hat.chars_ne_nil⟩
    rw [hline, covered_concat, List.getLast?_append, hd] at hc
    rw [hd]
    exact hc
  · refine completed_of_ender ?_ (.inl rfl)
    rw [htext, String.toList_append]
    exact List.getLast?_concat

/-- A line that ends with a comment after an expression has no end, and has one with a
semicolon before the comment, whether or not the comment takes in a semicolon. -/
private theorem Parts.comment_cases
    (h : Parts line tokens before last (gaps ++ [⟨.comment, w, none⟩])) :
    Unended (completed line) (stopOf tokens) ∧
      Evaluates (completed (ended line tokens)) expr := by
  constructor
  · rcases completed_cases line with hsame | hmore
    · rw [hsame]
      exact unended_of_tokenize hphrase h.tokenize_eq
    · rw [hmore]
      exact unended_of_tokenize hphrase h.comment.tokenize_eq
  · rcases completed_cases (ended line tokens) with hsame | hmore
    · rw [hsame]
      exact evaluates_of_tokenize hphrase h.tokenize_ended
    · rw [hmore, ← h.ended_append]
      exact evaluates_of_tokenize hphrase h.comment.tokenize_ended

end

/-- A trimmed line that is an expression, but for the semicolon, may do without it
unless it ends in a comment. With the semicolon right after the last token the
expression is evaluated. If this token ends the line, the line as it is makes the same
request, so that value, output and effect are the same. Otherwise the line ends in a
comment, and as it is, nothing is run: it is refused at the end of the last token. -/
theorem semicolon_supplied {line : String} {tokens : Tokens} {a : Span}
    {n next : NodeId} {program : Program} {span : Span} {expr : Expr}
    (htrimmed : trimmed line = line) (hne : line ≠ "")
    (hcolon : line.toList.head? ≠ some ':') (htokens : tokenize line = .ok tokens)
    (hparse : parse n (tokens ++ [⟨.sign .semi, a⟩]) = (.ok program, next))
    (hone : program.stmts = [.expression span expr]) :
    (∃ text, Request.ofLine (ended line tokens) = .source text ∧ Evaluates text expr) ∧
    (stopOf tokens = line.utf8ByteSize →
      Request.ofLine line = Request.ofLine (ended line tokens)) ∧
    (stopOf tokens ≠ line.utf8ByteSize → EndsInComment line (stopOf tokens) ∧
      ∃ text, Request.ofLine line = .source text ∧ Unended text (stopOf tokens)) := by
  have hphrase := (derives_of_parse hparse).phrase hone
  obtain ⟨before, last, gaps, hparts⟩ := exists_parts htokens hphrase.ne_nil
  obtain ⟨hended, hhead⟩ := hparts.trimmed_ended htrimmed
  have hline := ofLine_of_trimmed htrimmed hne hcolon
  have hrequest : Request.ofLine (ended line tokens) =
      .source (completed (ended line tokens)) := by
    refine ofLine_of_trimmed hended (fun hnil => hne ?_) (hhead ▸ hcolon)
    rw [hnil] at hhead
    exact String.toList_inj.1 (List.head?_eq_none_iff.1 hhead.symm)
  have hsize : line.utf8ByteSize = stopOf tokens + size (covered gaps) := by
    rw [← size_toList, hparts.text, size_append, hparts.stopOf_eq]
  rcases hparts.gaps_cases htrimmed with rfl | ⟨gaps, w, rfl, hw⟩
  · obtain ⟨hcompleted, hsame⟩ := hparts.completed_eq hphrase
    refine ⟨⟨_, hrequest, ?_⟩, fun _ => ?_, fun hstop => absurd hsize.symm hstop⟩
    · rw [hsame]
      exact evaluates_of_tokenize hphrase hparts.tokenize_ended
    · rw [hline, hrequest, hsame, hcompleted]
  · obtain ⟨hunended, hevaluates⟩ := hparts.comment_cases hphrase
    refine ⟨⟨_, hrequest, hevaluates⟩, fun hstop => ?_, fun _ =>
      ⟨⟨covered (before ++ [last]) ++ covered gaps, w, ?_, hw, ?_⟩, _, hline, hunended⟩⟩
    · have hpos : 0 < size w := by
        obtain ⟨rest, rfl, -⟩ := mem_comment.1 hw
        exact size_pos (cons_ne_nil _ _)
      have hgaps : size (covered (gaps ++ [⟨.comment, w, none⟩])) =
          size (covered gaps) + size w := by
        rw [covered_concat, size_append]
      omega
    · rw [hparts.text, covered_concat gaps, append_assoc]
    · rw [hparts.stopOf_eq, size_append]
      exact Nat.le_add_right _ _

/-- What a new session answers to a text: the value that is shown, if there is no
error. -/
def firstAnswer (text : String) : Option (Option (Option String)) :=
  ((Session.start Settings.default.run []).submit 20 .silent Task.ofLine text).map
    fun done =>
    done.2.1.toOption.map (Option.map Value.text)

/-- The tokens of `1 + 2`. -/
def sumTokens : Tokens :=
  [⟨.number 1, ⟨0, 1⟩⟩, ⟨.sign .plus, ⟨2, 3⟩⟩, ⟨.number 2, ⟨4, 5⟩⟩]

/-- What the tokens of `1 + 2` and a semicolon spell. -/
def sum : Expr :=
  .binary ⟨0, 5⟩ (.literal ⟨0, 1⟩ (.number 1)) .add (.literal ⟨4, 5⟩ (.number 2))

/-- A line that ends with its last token. -/
theorem semicolon_supplied_sum :
    tokenize "1 + 2" = .ok sumTokens ∧
      parse 0 (sumTokens ++ [⟨.sign .semi, ⟨5, 6⟩⟩]) =
        (.ok ⟨[.expression ⟨0, 6⟩ sum]⟩, 0) ∧
      ended "1 + 2" sumTokens = "1 + 2;" ∧
      Request.ofLine "1 + 2" = Request.ofLine "1 + 2;" ∧
      firstAnswer "1 + 2;" = some (some (some "3")) := by
  have htokens : tokenize "1 + 2" = .ok sumTokens := by decide +kernel
  have hparse : parse 0 (sumTokens ++ [⟨.sign .semi, ⟨5, 6⟩⟩]) =
    (.ok ⟨[.expression ⟨0, 6⟩ sum]⟩, 0) := rfl
  have hended : ended "1 + 2" sumTokens = "1 + 2;" := by decide +kernel
  obtain ⟨-, hsame, -⟩ :=
    semicolon_supplied (by decide +kernel) (by decide) (by decide +kernel) htokens
    hparse rfl
  rw [hended] at hsame
  exact ⟨htokens, hparse, hended, hsame (by decide +kernel), by decide +kernel⟩

/-- A line in which a comment follows the last token: it is an expression, but nothing
is evaluated without a semicolon. -/
theorem semicolon_lost :
    trimmed "1 + 2 // three" = "1 + 2 // three" ∧
      tokenize "1 + 2 // three" = .ok sumTokens ∧
      parse 0 (sumTokens ++ [⟨.sign .semi, ⟨5, 6⟩⟩]) =
        (.ok ⟨[.expression ⟨0, 6⟩ sum]⟩, 0) ∧
      ended "1 + 2 // three" sumTokens = "1 + 2; // three" ∧
      Request.ofLine "1 + 2 // three" = .source "1 + 2 // three;" ∧
      Request.ofLine "1 + 2; // three" = .source "1 + 2; // three;" ∧
      firstAnswer "1 + 2 // three;" = some none ∧
      firstAnswer "1 + 2; // three;" = some (some (some "3")) := by
  refine ⟨?_, ?_, rfl, ?_, ?_, ?_, ?_, ?_⟩ <;> decide +kernel

end Treewalk.Prompt
