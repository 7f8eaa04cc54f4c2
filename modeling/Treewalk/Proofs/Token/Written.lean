import Treewalk.Proofs.Token.LongestMatch

/-!
# Writing tokens

Every token has a source form: its `text`, but for a string, whose value is written
between quotes with a backslash before every backslash and every quote. Tokens that are
written one after the other, with one space between them, are read back as they are,
each at the place where it was written.

A source form is cut off as a whole when nothing or a space comes after it
(`Token.Reads`): a run of letters or digits ends there, no sign of two characters ends
with a space, and a string ends with its quote. So the tokens are read one by one, by
induction on the list.

* `tokenize_writing` — the tokens that are read are those that were written, with their
  places.
-/

namespace Treewalk

open List

variable {c : Char} {t : Token} {rest : List Char}

/-! ## Source forms -/

/-- How a character of a string is written between the quotes. -/
def escaped (c : Char) : List Char :=
  if c = '\\' ∨ c = '"' then ['\\', c] else [c]

namespace Token

/-- The source form of a token. -/
def written : Token → List Char
  | string s => '"' :: s.toList.flatMap escaped ++ ['"']
  | t => t.text.toList

/-- What has a source form: a number that is not negative, a name that is spelled like
one and is not reserved, and everything else. -/
def Writable : Token → Prop
  | number n => 0 ≤ n.toInt
  | ident name => name.toList ∈ Pattern.ident.language ∧ ∀ k : Keyword, name ≠ k.text
  | _ => True

/-- Tokens with one space between them. -/
def writing (tokens : List Token) : String :=
  String.ofList ([' '].intercalate (tokens.map written))

/-- What stands before a token: those before it, each with the space after it. -/
def lead (tokens : List Token) : List Char :=
  tokens.flatMap fun t => t.written ++ [' ']

/-- What stands after a token: those after it, each with the space before it. -/
def trail (tokens : List Token) : List Char :=
  tokens.flatMap fun t => ' ' :: t.written

/-- The places of tokens of which the first one is written at a byte. -/
def spots : Nat → List Token → List (Located Token)
  | _, [] => []
  | start, t :: ts =>
    ⟨t, ⟨start, start + size t.written⟩⟩ :: spots (start + size t.written + 1) ts

end Token

/-- Nothing comes, or a space. -/
def Ends (rest : List Char) : Prop :=
  ∀ c, rest.head? = some c → c = ' '

/-! ## What is cut off, by its first character -/

private theorem Pattern.not_starts {p q : Pattern} (hp : p.starts c = true)
    (hne : p.lead ≠ q.lead) : ¬q.starts c = true :=
  fun hq => hne (lead_eq_of_starts hp hq)

private theorem Pattern.isBlank_eq_false {p : Pattern} (hp : p.starts c = true)
    (hne : p.lead ≠ .blank) :
    isBlank c = false :=
  Bool.eq_false_iff.2 (not_starts (q := .blanks) hp hne)

namespace Segment

variable {c : Char} {body rest : List Char}

private theorem run_exact (kind : List Char → Kind) {p : Char → Bool}
    (hbody : ∀ d ∈ body, p d = true) (hspace : p ' ' = false) (hrest : Ends rest) :
    run kind p c (body ++ rest) = ⟨kind (c :: body), c :: body, rest⟩ := by
  have hstop : rest.takeWhile p = [] ∧ rest.dropWhile p = rest := by
    cases rest with
    | nil => exact ⟨rfl, rfl⟩
    | cons d after =>
      obtain rfl := hrest d rfl
      simp [hspace]
  simp only [run, takeWhile_append_of_pos hbody, dropWhile_append_of_pos hbody,
    hstop.1, hstop.2, append_nil]

private theorem first_of_isDecimal (hc : isDecimal c = true) (rest : List Char) :
    first c rest = run numberKind isDecimal c rest := by
  have hblank := Pattern.isBlank_eq_false (p := .number) hc (by simp [Pattern.lead])
  have hslash :=
    Pattern.not_starts (p := .number) (q := .comment) hc (by simp [Pattern.lead])
  simp only [Pattern.starts, decide_eq_true_eq] at hslash
  simp [first, hblank, hslash, hc]

theorem first_of_isWordStart (hc : isWordStart c = true) (rest : List Char) :
    first c rest = run wordKind isWordPart c rest := by
  have hblank := Pattern.isBlank_eq_false (p := .ident) hc (by simp [Pattern.lead])
  have hslash :=
    Pattern.not_starts (p := .ident) (q := .comment) hc (by simp [Pattern.lead])
  have hdigit :=
    Pattern.not_starts (p := .ident) (q := .number) hc (by simp [Pattern.lead])
  simp only [Pattern.starts, decide_eq_true_eq] at hslash hdigit
  simp [first, hblank, hslash, hdigit, hc]

private theorem first_of_isSignStart (hc : isSignStart c = true)
    (hcomment : ¬(c = '/' ∧ rest.head? = some '/')) :
    first c rest = sign c rest := by
  have hblank := Pattern.isBlank_eq_false (p := .sign .plus) hc (by simp [Pattern.lead])
  have hdigit :=
    Pattern.not_starts (p := .sign .plus) (q := .number) hc (by simp [Pattern.lead])
  have hletter :=
    Pattern.not_starts (p := .sign .plus) (q := .ident) hc (by simp [Pattern.lead])
  have hquote :=
    Pattern.not_starts (p := .sign .plus) (q := .string) hc (by simp [Pattern.lead])
  simp only [Pattern.starts, decide_eq_true_eq] at hdigit hletter hquote
  simp [first, hblank, hcomment, hdigit, hletter, hquote]

end Segment

/-! ## One token is read -/

namespace Token

/-- The source form of a token is cut off as a whole when nothing or a space comes after
it. -/
def Reads (t : Token) : Prop :=
  ∃ c body, t.written = c :: body ∧ isBlank c = false ∧
    ∀ rest, Ends rest → Segment.first c (body ++ rest) = ⟨.token t, c :: body, rest⟩

private theorem reads_word {body : List Char} (hwritten : t.written = c :: body)
    (hc : isWordStart c = true) (hbody : ∀ d ∈ body, isWordPart d = true)
    (hkind : Segment.wordKind (c :: body) = .token t) : t.Reads := by
  refine ⟨c, body, hwritten, ?_, ?_⟩
  · exact Pattern.isBlank_eq_false (p := .ident) hc (by simp [Pattern.lead])
  · intro rest hrest
    rw [Segment.first_of_isWordStart hc, Segment.run_exact Segment.wordKind hbody rfl
      hrest, hkind]

theorem isDecimal_of_isDigit (h : c.isDigit = true) : isDecimal c = true := by
  simpa [isDecimal, Char.isDigit, Char.le_def] using h

private theorem decimal_toDigits (n : Nat) : decimal (Nat.toDigits 10 n) = n := by
  rw [← decimalValue_eq]
  exact Nat.ofDigitChars_toDigits (by decide) (by decide)

private theorem toList_text_number {n : Int64} {k : Nat} (h : n.toInt = k) :
    (Token.number n).text.toList = Nat.toDigits 10 k := by
  have htext : (Token.number n).text = toString k := by
    simp only [text, h]
    rfl
  rw [htext, Nat.toString_eq_ofList_toDigits, String.toList_ofList]

private theorem reads_number {n : Int64} (h : 0 ≤ n.toInt) :
    (Token.number n).Reads := by
  obtain ⟨k, hk⟩ := Int.eq_ofNat_of_zero_le h
  have hrange : k < 2 ^ 63 := by
    have hlt := n.toInt_lt
    omega
  have hdigits : ∀ d ∈ Nat.toDigits 10 k, isDecimal d = true := fun d hd =>
    isDecimal_of_isDigit (Nat.isDigit_of_mem_toDigits (by decide) (by decide) hd)
  obtain ⟨c, body, hwritten⟩ :=
    exists_cons_of_ne_nil (Nat.toDigits_ne_nil (n := k) (b := 10))
  rw [hwritten] at hdigits
  obtain ⟨hc, hbody⟩ := forall_mem_cons.1 hdigits
  have hkind : Segment.numberKind (c :: body) = .token (.number n) := by
    have hvalue := decimal_toDigits k
    rw [hwritten] at hvalue
    rw [numberKind_of_lt (by rw [hvalue]; exact hrange), hvalue,
      Int64.toInt_inj.1 ((Int64.toInt_ofNat_of_lt hrange).trans hk.symm)]
  refine ⟨c, body, (toList_text_number hk).trans hwritten, ?_, ?_⟩
  · exact Pattern.isBlank_eq_false (p := .number) hc (by simp [Pattern.lead])
  · intro rest hrest
    rw [Segment.first_of_isDecimal hc, Segment.run_exact Segment.numberKind hbody rfl
      hrest, hkind]

/-- No sign of two characters ends with a space, so a sign is not read together with
what comes after it. -/
private theorem sign2?_none_of_ends (h : Ends rest) (c : Char) :
    rest.head?.bind (Segment.sign2? c) = none := by
  cases rest with
  | nil => rfl
  | cons d after =>
    obtain rfl := h d rfl
    simp only [List.head?_cons, Option.bind_some]
    unfold Segment.sign2?
    split <;> simp_all

private theorem reads_sign (s : Sign) : (Token.sign s).Reads := by
  have hblank : ∀ c, isSignStart c = true → isBlank c = false := fun c hc =>
    Pattern.isBlank_eq_false (p := .sign s) hc (by simp [Pattern.lead])
  rcases s.text_cases with ⟨c, htext, hsign⟩ | ⟨c, d, htext, hsign⟩
  · have hc := isSignStart_of_text htext
    refine ⟨c, [], htext, hblank c hc, ?_⟩
    intro rest hrest
    have hcomment : ¬(c = '/' ∧ rest.head? = some '/') := by
      rintro ⟨-, hslash⟩
      cases hrest '/' hslash
    rw [nil_append, Segment.first_of_isSignStart hc hcomment]
    simp only [Segment.sign, sign2?_none_of_ends hrest, hsign]
  · have hc := isSignStart_of_text htext
    refine ⟨c, [d], htext, hblank c hc, ?_⟩
    intro rest _
    have hcomment : ¬(c = '/' ∧ ([d] ++ rest).head? = some '/') := by
      rintro ⟨rfl, hslash⟩
      cases hslash
      cases hsign
    rw [Segment.first_of_isSignStart hc hcomment]
    simp [Segment.sign, hsign]

private theorem escaped_mem (c : Char) : escaped c ∈ stringItem := by
  unfold escaped
  split
  · rename_i hspecial
    refine mem_stringItem.2 (.inr ⟨c, ?_, rfl⟩)
    rcases hspecial with rfl | rfl <;> decide
  · rename_i hplain
    obtain ⟨hslash, hquote⟩ := not_or.1 hplain
    exact mem_stringItem.2 (.inl ⟨c, hquote, hslash, rfl⟩)

private theorem itemValue_escaped (c : Char) : itemValue (escaped c) = [c] := by
  unfold escaped
  split
  · rename_i hspecial
    rcases hspecial with rfl | rfl <;> rfl
  · unfold itemValue
    split <;> simp_all

/-- Reading what is written between quotes gives the value of the string. -/
private theorem unescape_escaped (chars : List Char) :
    unescape (chars.flatMap escaped) = chars := by
  induction chars with
  | nil => rfl
  | cons c chars ih =>
    rw [flatMap_cons, unescape_item_append (escaped_mem c), itemValue_escaped, ih,
      singleton_append]

/-- No quote among what is written ends the string. -/
private theorem stringItems_escaped (chars rest : List Char) :
    stringItems (chars.flatMap escaped ++ '"' :: rest) =
      (chars.flatMap escaped, '"' :: rest) := by
  induction chars with
  | nil => simp [stringItems]
  | cons c chars ih =>
    rw [flatMap_cons, append_assoc, Segment.stringItems_item_append (escaped_mem c), ih]

private theorem reads_string (s : String) : (Token.string s).Reads := by
  refine ⟨'"', s.toList.flatMap escaped ++ ['"'], rfl, rfl, ?_⟩
  intro rest _
  have hitems := stringItems_escaped s.toList rest
  have hfirst : Segment.first '"' (s.toList.flatMap escaped ++ ['"'] ++ rest) =
      Segment.string (s.toList.flatMap escaped ++ '"' :: rest) := by
    rw [append_assoc]
    rfl
  rw [hfirst]
  simp only [Segment.string, hitems, unescape_escaped, String.ofList_toList,
    cons_append]

private theorem Writable.reads (h : t.Writable) : t.Reads := by
  cases t with
  | word k =>
    obtain ⟨c, body, htext, hc, hbody⟩ := toList_text_keyword k
    refine reads_word htext hc hbody ?_
    rw [← htext, Segment.wordKind_text]
  | sign s => exact reads_sign s
  | number n => exact reads_number h
  | string s => exact reads_string s
  | ident name =>
    obtain ⟨hname, hfree⟩ := h
    obtain ⟨c, body, htext, hc, hbody⟩ := mem_oneOf_mul_kstar.1 hname
    refine reads_word htext hc hbody ?_
    rw [← htext, Segment.wordKind_of_ne, String.ofList_toList]
    intro k heq
    exact hfree k (String.toList_inj.1 heq)

end Token

/-! ## All tokens are read -/

theorem tokenizeFrom_of_first {start : Nat} {after w : List Char}
    (h : Segment.first c rest = ⟨.token t, w, after⟩) :
    tokenizeFrom start (c :: rest) = (tokenizeFrom (start + size w) after).map
      (⟨t, ⟨start, start + size w⟩⟩ :: ·) := by
  rw [tokenizeFrom]
  simp only [h, byteLength_eq_size]
  cases tokenizeFrom (start + size w) after <;> rfl

private theorem tokenizeFrom_space (hc : isBlank c = false) (start : Nat)
    (rest : List Char) :
    tokenizeFrom start (' ' :: c :: rest) = tokenizeFrom (start + 1) (c :: rest) := by
  have hfirst : Segment.first ' ' (c :: rest) = ⟨.skipped, [' '], c :: rest⟩ := by
    have hblank : isBlank ' ' = true := rfl
    simp [Segment.first, Segment.run, hblank, hc]
  rw [tokenizeFrom]
  simp only [hfirst]
  rfl

namespace Token

private theorem lead_cons (t : Token) (ts : List Token) :
    lead (t :: ts) = t.written ++ ' ' :: lead ts := by
  simp [lead]

private theorem trail_cons (t : Token) (ts : List Token) :
    trail (t :: ts) = ' ' :: (t.written ++ trail ts) := by
  simp [trail]

private theorem ends_trail (ts : List Token) : Ends (trail ts) := by
  intro c hc
  cases ts with
  | nil => cases hc
  | cons t ts =>
    cases hc
    rfl

private theorem tokenizeFrom_trail (start : Nat) (t : Token) (ts : List Token)
    (h : ∀ u ∈ t :: ts, u.Writable) :
    tokenizeFrom start (t.written ++ trail ts) = .ok (spots start (t :: ts)) := by
  induction ts generalizing start t with
  | nil =>
    obtain ⟨c, body, hwritten, -, hreads⟩ := (h t mem_cons_self).reads
    rw [hwritten, cons_append, tokenizeFrom_of_first (hreads _ (ends_trail [])),
      ← hwritten]
    simp [trail, tokenizeFrom, spots, Except.map]
  | cons u us ih =>
    obtain ⟨c, body, hwritten, -, hreads⟩ := (h t mem_cons_self).reads
    obtain ⟨d, body', hnext, hblank, -⟩ := (h u (by simp)).reads
    have hrest :=
      ih (start + size t.written + 1) u fun v hv => h v (mem_cons_of_mem _ hv)
    rw [hwritten, cons_append, tokenizeFrom_of_first (hreads _ (ends_trail _)),
      ← hwritten, trail_cons]
    rw [hnext, cons_append] at hrest ⊢
    rw [tokenizeFrom_space hblank, hrest]
    rfl

/-! ## Places -/

private theorem map_node_spots (start : Nat) (ts : List Token) :
    (spots start ts).map (·.node) = ts := by
  induction ts generalizing start with
  | nil => rfl
  | cons t ts ih => rw [spots, map_cons, ih]

/-- A token is at the place after all that is written before it. -/
private theorem getElem?_spots (start : Nat) (before : List Token) (t : Token)
    (after : List Token) :
    (spots start (before ++ t :: after))[before.length]? =
      some
        ⟨t, ⟨start + size (lead before), start + size (lead before ++ t.written)⟩⟩ := by
  induction before generalizing start with
  | nil => simp [spots, lead, size]
  | cons u before ih =>
    have hspace : size (' ' :: lead before) = 1 + size (lead before) :=
      size_append [' '] _
    rw [cons_append, spots, length_cons, List.getElem?_cons_succ, ih]
    simp only [lead_cons, size_append, hspace, Nat.add_assoc]

private theorem intercalate_cons_cons (a b : List Char) (rest : List (List Char)) :
    [' '].intercalate (a :: b :: rest) = a ++ ' ' :: [' '].intercalate (b :: rest) := by
  simp [List.intercalate]

/-- The whole text around one of its tokens. -/
theorem toList_writing (before : List Token) (t : Token) (after : List Token) :
    (writing (before ++ t :: after)).toList = lead before ++ t.written ++
      trail after := by
  rw [writing, String.toList_ofList]
  induction before with
  | nil =>
    induction after generalizing t with
    | nil => simp [lead, trail]
    | cons u after ih =>
      have hrest := ih u
      simp only [lead, flatMap_nil, nil_append, map_cons] at hrest ⊢
      rw [intercalate_cons_cons, hrest, trail_cons]
  | cons u before ih =>
    have hjoin : [' '].intercalate ((u :: (before ++ t :: after)).map written) =
        u.written ++ ' ' :: [' '].intercalate ((before ++ t :: after).map written) := by
      cases before with
      | nil => exact intercalate_cons_cons _ _ _
      | cons v before => exact intercalate_cons_cons _ _ _
    rw [cons_append, hjoin, ih, lead_cons]
    simp only [append_assoc, cons_append]

end Token

/-- Tokens with a source form, written with one space between them, are read back as
they are, and each of them is at the place where it was written: the place is after all
that stands before the token, and has the size of its source form. -/
theorem tokenize_writing (tokens : List Token) (h : ∀ t ∈ tokens, t.Writable) :
    ∃ located, tokenize (Token.writing tokens) = .ok located ∧
      located.map (·.node) = tokens ∧ ∀ before t after, tokens = before ++ t :: after →
        (Token.writing tokens).toList =
          Token.lead before ++ t.written ++ Token.trail after ∧
        located[before.length]? = some ⟨t,
          ⟨size (Token.lead before), size (Token.lead before ++ t.written)⟩⟩ := by
  refine ⟨Token.spots 0 tokens, ?_, Token.map_node_spots 0 tokens, ?_⟩
  · cases tokens with
    | nil => simp [Token.writing, tokenize, tokenizeFrom, Token.spots]
    | cons t ts =>
      have htext := Token.toList_writing [] t ts
      rw [nil_append] at htext
      rw [tokenize, htext]
      exact Token.tokenizeFrom_trail 0 t ts h
  · rintro before t after rfl
    refine ⟨Token.toList_writing before t after, ?_⟩
    rw [Token.getElem?_spots, Nat.zero_add, Nat.zero_add]

/-- Two slashes that are no comment, the largest number, and a string of a quote, a line
feed and a backslash at its end. -/
def slashedTokens : List Token :=
  [.word .ret, .string "\"\n\\", .sign .slash, .sign .slash,
    .number 9223372036854775807, .ident "_x1"]

theorem tokenize_writing_slashedTokens :
    (∀ t ∈ slashedTokens, t.Writable) ∧
      ∃ located, tokenize "return \"\\\"\n\\\\\" / / 9223372036854775807 _x1" =
        .ok located ∧ located.map (·.node) = slashedTokens ∧
        located[1]? = some ⟨.string "\"\n\\", ⟨7, 14⟩⟩ ∧
        located[5]? = some ⟨.ident "_x1", ⟨39, 42⟩⟩ := by
  have hname : (Token.ident "_x1").Writable := by
    refine ⟨mem_oneOf_mul_kstar.2 ⟨'_', ['x', '1'], rfl, rfl, all_eq_true.1 rfl⟩, ?_⟩
    intro k
    cases k <;> decide
  have hwritable : ∀ t ∈ slashedTokens, t.Writable := by
    have hnumber : 0 ≤ (9223372036854775807 : Int64).toInt := by decide
    simp only [slashedTokens, forall_mem_cons]
    exact ⟨trivial, trivial, trivial, trivial, hnumber, hname, forall_mem_nil _⟩
  obtain ⟨located, hlocated, hnodes, hplaces⟩ :=
    tokenize_writing slashedTokens hwritable
  have hstring := (hplaces [.word .ret] _ _ rfl).2
  have hlast := (hplaces [.word .ret, .string "\"\n\\", .sign .slash, .sign .slash,
    .number 9223372036854775807] _ [] rfl).2
  exact ⟨hwritable, located, hlocated, hnodes, hstring, hlast⟩

end Treewalk
