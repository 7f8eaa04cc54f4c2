import Mathlib.Data.Nat.Digits.Defs
import Treewalk.Proofs.Token.Pattern

/-!
# Tokens are longest matches

A text is split from left to right, each time after its longest match (`Split`), up to
its end or up to a place where it cannot be split any further (`Stuck`): no pattern
matches, or the longest match is a number that is too large. There is one such split
only, and the tokens of a text are what the parts of this split mean (`Means`), each at
the bytes that it takes.

* `tokenize_iff_split` — tokens, and errors, are those of the split; tokens do not
  overlap, and only blanks and comments stand between them.
* `spaced_of_tokenize` — what the places of tokens have in common.
-/

namespace Treewalk

open List

open scoped Computability

variable {w text rest : List Char} {p : Pattern} {cause : LexCause} {c : Char}
  {start : Nat} {source : String} {ts : List (Located Token)} {t? : Option Token}
  {ls : List Lexeme} {result : Except LexError (List (Located Token))}
  {before after : List Char}

/-! ## What a match means -/

/-- The number of bytes that characters take in a text. -/
def size (chars : List Char) : Nat :=
  (String.ofList chars).utf8ByteSize

/-- The number that digits denote in base ten. -/
def decimal (digits : List Char) : Nat :=
  Nat.ofDigits 10 (digits.reverse.map fun c => c.toNat - '0'.toNat)

/-- What an item of a string stands for: five of the escapes for one character, any
other item for itself. -/
def itemValue : List Char → List Char
  | ['\\', 'n'] => ['\n']
  | ['\\', 't'] => ['\t']
  | ['\\', 'r'] => ['\r']
  | ['\\', '\\'] => ['\\']
  | ['\\', '"'] => ['"']
  | item => item

/-- The token that a match is, and none for what stands between tokens. A number has to
be in range. -/
inductive Means : Pattern → List Char → Option Token → Prop where
  | blanks {w : List Char} : Means .blanks w none
  | comment {w : List Char} : Means .comment w none
  | word {w : List Char} {k : Keyword} : Means (.word k) w (some (.word k))
  | sign {w : List Char} {s : Sign} : Means (.sign s) w (some (.sign s))
  | number {w : List Char} {n : Int64} (range : decimal w < 2 ^ 63)
      (value : n.toInt = decimal w) :
      Means .number w (some (.number n))
  | string {items : List (List Char)} (fits : ∀ item ∈ items, item ∈ stringItem) :
      Means .string ('"' :: items.flatten ++ ['"'])
        (some (.string (String.ofList (items.flatMap itemValue))))
  | ident {w : List Char} : Means .ident w (some (.ident (String.ofList w)))

/-! ## Splits -/

/-- A part of a text: the pattern that it matches, its characters, and the token that it
is, if any. -/
structure Lexeme where
  pattern : Pattern
  chars : List Char
  token? : Option Token

/-- The part is the longest match of the text. -/
structure Lexeme.At (l : Lexeme) (text : List Char) : Prop where
  longest : Longest text l.pattern l.chars
  means : Means l.pattern l.chars l.token?

/-- A text is the parts, each the longest match of what remains, and a rest. -/
inductive Split : List Char → List Lexeme → List Char → Prop where
  | here {text : List Char} : Split text [] text
  | next {l : Lexeme} {ls : List Lexeme} {text rest : List Char}
      (first : l.At (l.chars ++ text)) (others : Split text ls rest) :
      Split (l.chars ++ text) (l :: ls) rest

/-- The text cannot be split after these characters, which are reported. -/
inductive Stuck : List Char → LexCause → List Char → Prop where
  | unmatched {text w : List Char} (none : Unmatched text) (part : Refused text w) :
      Stuck text (.unexpected (String.ofList w)) w
  | tooLarge {text w : List Char} (longest : Longest text .number w)
      (range : 2 ^ 63 ≤ decimal w) :
      Stuck text (.numberTooLarge (String.ofList w)) w

/-- The characters of all parts. -/
def covered (ls : List Lexeme) : List Char :=
  ls.flatMap Lexeme.chars

/-- The tokens among parts that start at a byte, with the bytes that they take. -/
def placed : Nat → List Lexeme → List (Located Token)
  | _, [] => []
  | start, l :: ls =>
    let stop := start + size l.chars
    (l.token?.map (⟨·, ⟨start, stop⟩⟩)).toList ++ placed stop ls

/-! ## Sizes and values -/

@[simp] theorem size_append (a b : List Char) : size (a ++ b) = size a + size b := by
  rw [size, String.ofList_append, String.utf8ByteSize_append]
  rfl

theorem size_toList (s : String) : size s.toList = s.utf8ByteSize := by
  rw [size, String.ofList_toList]

theorem byteLength_eq_size (chars : List Char) : byteLength chars = size chars := by
  induction chars with
  | nil => rfl
  | cons c rest ih =>
    rw [byteLength_cons, ih, size, size, String.ofList_cons, String.utf8ByteSize_append,
      String.utf8ByteSize_singleton]

theorem size_pos {chars : List Char} (h : chars ≠ []) : 0 < size chars := by
  obtain ⟨c, rest, rfl⟩ := exists_cons_of_ne_nil h
  rw [← byteLength_eq_size, byteLength_cons]
  have := c.utf8Size_pos
  omega

theorem decimalValue_eq (digits : List Char) :
    decimalValue digits = decimal digits := by
  rw [decimalValue, decimal, Nat.ofDigits_eq_foldr, foldr_map, foldr_reverse]
  refine congrFun (congrFun (congrArg _ ?_) _) _
  funext n c
  exact Nat.add_comm _ _

theorem unescape_item_append {item : List Char} (h : item ∈ stringItem)
    (rest : List Char) :
    unescape (item ++ rest) = itemValue item ++ unescape rest := by
  rcases mem_stringItem.1 h with ⟨c, -, hslash, rfl⟩ | ⟨c, -, rfl⟩
  · rw [singleton_append, unescape.eq_def]
    split <;> simp_all [itemValue]
  · rw [cons_append, singleton_append, unescape.eq_def]
    split <;> simp_all [itemValue]
    rename_i hpair heq
    exact absurd heq.2.symm (hpair _ _ heq.1.symm)

/-- The value of a string is that of its items. -/
theorem unescape_flatten {items : List (List Char)}
    (h : ∀ item ∈ items, item ∈ stringItem) :
    unescape items.flatten = items.flatMap itemValue := by
  induction items with
  | nil => rfl
  | cons item items ih =>
    obtain ⟨hitem, hitems⟩ := forall_mem_cons.1 h
    rw [flatten_cons, unescape_item_append hitem, ih hitems, flatMap_cons]

/-! ## The kind of a match -/

theorem numberKind_of_lt (h : decimal w < 2 ^ 63) :
    Segment.numberKind w = .token (.number (Int64.ofNat (decimal w))) := by
  simp only [Segment.numberKind, decimalValue_eq]
  exact if_pos h

theorem numberKind_of_le (h : 2 ^ 63 ≤ decimal w) :
    Segment.numberKind w = .invalid (.numberTooLarge (String.ofList w)) := by
  simp only [Segment.numberKind, decimalValue_eq]
  exact if_neg (Nat.not_lt.2 h)

/-- What a match means is what its kind says. -/
theorem Means.kind {p : Pattern} (h : Means p w t?) :
    p.kind w = t?.elim .skipped .token := by
  cases h with
  | number range value =>
    rw [Pattern.kind, numberKind_of_lt range, Option.elim_some,
      Int64.toInt_inj.1 ((Int64.toInt_ofNat_of_lt range).trans value.symm)]
  | @string items fits => simp [Pattern.kind, unescape_flatten fits]
  | _ => rfl

/-- A match means something, or is a number that is too large. -/
private theorem means_of_mem (h : w ∈ p.language) :
    (∃ t?, Means p w t?) ∨ (p = .number ∧ 2 ^ 63 ≤ decimal w) := by
  cases p with
  | blanks => exact .inl ⟨_, .blanks⟩
  | comment => exact .inl ⟨_, .comment⟩
  | word k => exact .inl ⟨_, .word⟩
  | sign s => exact .inl ⟨_, .sign⟩
  | number =>
    rcases Nat.lt_or_ge (decimal w) (2 ^ 63) with hlt | hle
    · exact .inl ⟨_, .number hlt (Int64.toInt_ofNat_of_lt hlt)⟩
    · exact .inr ⟨rfl, hle⟩
  | string =>
    obtain ⟨items, hitems, rfl⟩ := mem_string.1 h
    exact .inl ⟨_, .string hitems⟩
  | ident => exact .inl ⟨_, .ident⟩

private theorem Means.unique {u? : Option Token} (h : Means p w t?)
    (h' : Means p w u?) : t? = u? := by
  have heq := h.kind.symm.trans h'.kind
  cases t? <;> cases u? <;> cases heq <;> rfl

/-! ## One split -/

private theorem Lexeme.At.unique {l m : Lexeme} (h : l.At text) (h' : m.At text) :
    l = m := by
  obtain ⟨p, w, t?⟩ := l
  obtain ⟨q, v, u?⟩ := m
  obtain ⟨rfl, rfl⟩ : p = q ∧ w = v := h.longest.unique h'.longest
  exact congrArg (Lexeme.mk p w) (h.means.unique h'.means)

theorem Longest.ne_nil (h : Longest text p w) : w ≠ [] := by
  obtain ⟨c, rest, rfl, -⟩ := Pattern.starts_of_mem h.fits
  exact cons_ne_nil _ _

/-- The text does not start with a part. -/
def Halts (text : List Char) : Prop :=
  ∀ l : Lexeme, ¬l.At text

private theorem halts_nil :
    Halts [] := fun _ h => h.longest.ne_nil (prefix_nil.1 h.longest.start)

private theorem Stuck.halts (h : Stuck text cause w) : Halts text := by
  intro l hl
  cases h with
  | unmatched none part => exact none _ _ hl.longest.fits hl.longest.start
  | tooLarge longest range =>
    obtain ⟨p, v, t?⟩ := l
    obtain ⟨rfl, rfl⟩ : Pattern.number = p ∧ w = v := longest.unique hl.longest
    cases hl.means with
    | number range' => exact absurd range' (Nat.not_lt.2 range)

private theorem Refused.unique {v : List Char} (h : Refused text w)
    (h' : Refused text v) : w = v := by
  have hquote : ∀ {c : Char} {rest w : List Char}, c ≠ '"' →
    w ∈ ({['"']} : Language Char) * stringItem∗ →
      ¬w <+: c :: rest := by
    intro c rest w hc hw hstart
    obtain ⟨items, -, rfl⟩ := mem_quote_mul_kstar.1 hw
    exact hc (cons_prefix_cons.1 hstart).1.symm
  cases h with
  | string fits start longest =>
    cases h' with
    | string fits' start' longest' =>
      have hlength := Nat.le_antisymm (longest' w fits start) (longest v fits' start')
      exact (prefix_of_prefix_length_le start start' hlength.le).eq_of_length hlength
    | character hc => exact absurd start (hquote hc fits)
  | character hc =>
    cases h' with
    | string fits' start' longest' => exact absurd start' (hquote hc fits')
    | character _ => rfl

private theorem Stuck.unique {v : List Char} {cause cause' : LexCause}
    (h : Stuck text cause w) (h' : Stuck text cause' v) :
    cause = cause' ∧ w = v := by
  cases h with
  | unmatched none part =>
    cases h' with
    | unmatched none' part' =>
      obtain rfl := part.unique part'
      exact ⟨rfl, rfl⟩
    | tooLarge longest range => exact absurd longest.start (none _ _ longest.fits)
  | tooLarge longest range =>
    cases h' with
    | unmatched none' part' => exact absurd longest.start (none' _ _ longest.fits)
    | tooLarge longest' range' =>
      obtain ⟨-, rfl⟩ := longest.unique longest'
      exact ⟨rfl, rfl⟩

private theorem Stuck.part {text w : List Char} {cause : LexCause}
    (h : Stuck text cause w) :
    w ≠ [] ∧ w <+: text := by
  cases h with
  | unmatched none part =>
    cases part with
    | string fits start longest =>
      obtain ⟨items, -, rfl⟩ := mem_quote_mul_kstar.1 fits
      exact ⟨cons_ne_nil _ _, start⟩
    | character hc => exact ⟨cons_ne_nil _ _, ⟨_, rfl⟩⟩
  | tooLarge longest range => exact ⟨longest.ne_nil, longest.start⟩

theorem not_stuck_nil : ¬Stuck [] cause w :=
  fun h => h.part.1 (prefix_nil.1 h.part.2)

private theorem Split.unique {rest rest' : List Char} {ms : List Lexeme}
    (h : Split text ls rest) (h' : Split text ms rest') (hend : Halts rest)
    (hend' : Halts rest') : ls = ms ∧ rest = rest' := by
  induction h generalizing ms with
  | here =>
    cases h' with
    | here => exact ⟨rfl, rfl⟩
    | next first others => exact absurd first (hend _)
  | @next l ls text rest first others ih =>
    generalize htext : l.chars ++ text = whole at h' first
    cases h' with
    | here => exact absurd first (hend' _)
    | @next m ms text' _ first' others' =>
      obtain rfl := first.unique first'
      obtain rfl := append_cancel_left htext
      obtain ⟨rfl, rfl⟩ := ih others' hend
      exact ⟨rfl, rfl⟩

theorem Split.append (h : Split text ls rest) : covered ls ++ rest = text := by
  induction h with
  | here => rfl
  | next first others ih => rw [covered, flatMap_cons, append_assoc, ← covered, ih]

/-! ## The split that the scanner finds -/

/-- What is cut off a text is a part of its split. -/
theorem first_part (t? : Option Token)
    (h : (Segment.first c rest).kind = t?.elim .skipped .token) :
    ∃ p, Lexeme.At ⟨p, (Segment.first c rest).chars, t?⟩ (c :: rest) := by
  rcases Segment.first_cases c rest with ⟨p, hlongest, hkind⟩ | ⟨-, hkind, -⟩
  · rcases means_of_mem hlongest.fits with ⟨u?, hmeans⟩ | ⟨rfl, hrange⟩
    · have heq := (hkind.symm.trans h).symm.trans hmeans.kind
      cases t? <;> cases u? <;> cases heq <;> exact ⟨p, hlongest, hmeans⟩
    · have heq := (hkind.symm.trans h).symm.trans (numberKind_of_le hrange)
      cases t? <;> cases heq
  · have heq := h.symm.trans hkind
    cases t? <;> cases heq

private theorem first_stuck (h : (Segment.first c rest).kind = .invalid cause) :
    Stuck (c :: rest) cause (Segment.first c rest).chars := by
  rcases Segment.first_cases c rest
    with ⟨p, hlongest, hkind⟩ | ⟨hunmatched, hkind, hrefused⟩
  · rcases means_of_mem hlongest.fits with ⟨t?, hmeans⟩ | ⟨rfl, hrange⟩
    · have heq := (hkind.symm.trans h).symm.trans hmeans.kind
      cases t? <;> cases heq
    · cases (hkind.symm.trans h).symm.trans (numberKind_of_le hrange)
      exact .tooLarge hlongest hrange
  · cases h.symm.trans hkind
    exact .unmatched hunmatched hrefused

/-- What the split of a text gives that starts at a byte. -/
inductive Scanned (start : Nat) (text : List Char) :
  Except LexError (List (Located Token)) → Prop where
  | ok {ls : List Lexeme} (split : Split text ls []) : Scanned start text
      (.ok (placed start ls))
  | error {ls : List Lexeme} {rest w : List Char} {cause : LexCause}
      (split : Split text ls rest) (stuck : Stuck rest cause w) :
      Scanned start text
        (.error
          ⟨cause, ⟨start + size (covered ls), start + size (covered ls) + size w⟩⟩)

private theorem Scanned.cons {stop : Nat} {l : Lexeme} (first : l.At (l.chars ++ text))
    (hstop : stop = start + size l.chars) (h : Scanned stop text result) :
    Scanned start (l.chars ++ text)
      (result.map ((l.token?.map (⟨·, ⟨start, stop⟩⟩)).toList ++ ·)) := by
  subst hstop
  cases h with
  | ok split => exact .ok (.next first split)
  | error split stuck =>
    have hnext : Scanned start _ _ := .error (.next first split) stuck
    simp only [covered, flatMap_cons, size_append, ← Nat.add_assoc] at hnext
    exact hnext

theorem Scanned.segment (t? : Option Token)
    (hkind : (Segment.first c rest).kind = t?.elim .skipped .token)
    (h : Scanned (start + byteLength (Segment.first c rest).chars)
      (Segment.first c rest).rest result) :
    Scanned start (c :: rest) (result.map
      ((t?.map
        (⟨·, ⟨start, start + byteLength (Segment.first c rest).chars⟩⟩)).toList ++
        ·)) := by
  obtain ⟨p, hat⟩ := first_part t? hkind
  rw [← Segment.first_append] at hat
  have hcons := Scanned.cons hat (by rw [byteLength_eq_size]) h
  rwa [Segment.first_append] at hcons

/-- The scanner finds the split, a part at each of its segments. -/
theorem scanned_tokenizeFrom (start : Nat) (text : List Char) :
    Scanned start text (tokenizeFrom start text) := by
  fun_induction tokenizeFrom start text with
  | case1 start => exact .ok .here
  | case2 start c rest segment span hkind ih =>
    have hsegment := Scanned.segment none hkind ih
    generalize tokenizeFrom span.stop segment.rest = result at hsegment ⊢
    cases result <;> exact hsegment
  | case3 start c rest segment span t hkind tokens heq ih =>
    rw [heq] at ih
    exact Scanned.segment (some t) hkind ih
  | case4 start c rest segment span t hkind e heq ih =>
    rw [heq] at ih
    exact Scanned.segment (some t) hkind ih
  | case5 start c rest segment span cause hkind =>
    have herror : Scanned start _ _ := .error .here (first_stuck hkind)
    rw [← byteLength_eq_size (Segment.first c rest).chars] at herror
    exact herror

private theorem Scanned.unique {a b : Except LexError (List (Located Token))}
    (ha : Scanned start text a) (hb : Scanned start text b) : a = b := by
  cases ha with
  | ok split =>
    cases hb with
    | ok split' =>
      obtain ⟨rfl, -⟩ := split.unique split' halts_nil halts_nil
      rfl
    | error split' stuck' =>
      obtain ⟨-, rfl⟩ := split.unique split' halts_nil stuck'.halts
      exact absurd stuck' not_stuck_nil
  | error split stuck =>
    cases hb with
    | ok split' =>
      obtain ⟨-, rfl⟩ := split.unique split' stuck.halts halts_nil
      exact absurd stuck not_stuck_nil
    | error split' stuck' =>
      obtain ⟨rfl, rfl⟩ := split.unique split' stuck.halts stuck'.halts
      obtain ⟨rfl, rfl⟩ := stuck.unique stuck'
      rfl

theorem scanned_tokenize :
    tokenize source = result ↔ Scanned 0 source.toList result := by
  constructor
  · rintro rfl
    exact scanned_tokenizeFrom 0 source.toList
  · intro h
    exact (scanned_tokenizeFrom 0 source.toList).unique h

/-! ## Places -/

/-- What may stand between two tokens. -/
def spacing : Language Char :=
  (Pattern.blanks.language + Pattern.comment.language)∗

/-- The text that starts at a byte is tokens at their places, with blanks and comments
before, between and after them. -/
inductive Tiles : Nat → List Char → List (Located Token) → Prop where
  | last {start : Nat} {gap : List Char} (hgap : gap ∈ spacing) : Tiles start gap []
  | token {start : Nat} {gap w rest : List Char} {p : Pattern} {t : Token}
      {ts : List (Located Token)} (hgap : gap ∈ spacing) (fits : w ∈ p.language)
      (means : Means p w (some t))
      (others : Tiles (start + size gap + size w) rest ts) :
      Tiles start (gap ++ w ++ rest)
        (⟨t, ⟨start + size gap, start + size gap + size w⟩⟩ :: ts)

private theorem nil_mem_spacing : [] ∈ spacing :=
  Language.mem_kstar.2 ⟨[], rfl, nofun⟩

private theorem append_mem_spacing {gap : List Char}
    (hw : w ∈ Pattern.blanks.language + Pattern.comment.language)
    (hgap : gap ∈ spacing) : w ++ gap ∈ spacing := by
  obtain ⟨parts, rfl, hparts⟩ := Language.mem_kstar.1 hgap
  exact Language.mem_kstar.2 ⟨w :: parts, rfl, forall_mem_cons.2 ⟨hw, hparts⟩⟩

private theorem Tiles.skip (hw : w ∈ Pattern.blanks.language + Pattern.comment.language)
    (h : Tiles (start + size w) text ts) : Tiles start (w ++ text) ts := by
  cases h with
  | last hgap => exact .last (append_mem_spacing hw hgap)
  | @token _ gap v rest p t ts hgap fits means others =>
    rw [Nat.add_assoc start, ← size_append] at others ⊢
    rw [append_assoc, ← append_assoc, ← append_assoc]
    exact .token (append_mem_spacing hw hgap) fits means others

theorem Tiles.cons {p : Pattern} {t : Token} {ts : List (Located Token)}
    (fits : w ∈ p.language) (means : Means p w (some t))
    (h : Tiles (start + size w) text ts) :
    Tiles start (w ++ text) (⟨t, ⟨start, start + size w⟩⟩ :: ts) :=
  .token nil_mem_spacing fits means h

/-- The tokens of a split tile the text. -/
private theorem Split.tiles (h : Split text ls rest) (hend : rest = []) (start : Nat) :
    Tiles start text (placed start ls) := by
  induction h generalizing start with
  | here =>
    rw [hend]
    exact .last nil_mem_spacing
  | @next l ls text rest first others ih =>
    obtain ⟨p, w, t?⟩ := l
    have hrest := ih hend (start + size w)
    have hfits := first.longest.fits
    cases t? with
    | some t => exact hrest.cons hfits first.means
    | none =>
      refine hrest.skip ?_
      cases first.means with
      | blanks => exact .inl hfits
      | comment => exact .inr hfits

/-- A token stands where its characters stand. -/
theorem Tiles.mem (h : Tiles start text ts) {t : Located Token} (ht : t ∈ ts) :
    ∃ before w after, text = before ++ w ++ after ∧ w ≠ [] ∧
      t.span = ⟨start + size before, start + size before + size w⟩ := by
  induction h with
  | last => cases ht
  | @token start gap w rest p u ts hgap fits means others ih =>
    rcases mem_cons.1 ht with rfl | ht
    · obtain ⟨c, tail, rfl, -⟩ := Pattern.starts_of_mem fits
      exact ⟨gap, _, rest, rfl, cons_ne_nil _ _, rfl⟩
    · obtain ⟨before, v, after, rfl, hv, hspan⟩ := ih ht
      refine ⟨gap ++ w ++ before, v, after, by simp only [append_assoc], hv, ?_⟩
      simp only [hspan, size_append, Nat.add_assoc]

private theorem Tiles.disjoint (h : Tiles start text ts) :
    ts.Pairwise fun t u => t.span.stop ≤ u.span.start := by
  induction h with
  | last => exact .nil
  | token hgap fits means others ih =>
    refine .cons (fun u hu => ?_) ih
    obtain ⟨before, v, after, -, -, hspan⟩ := others.mem hu
    rw [hspan]
    exact Nat.le_add_right _ _

private theorem isValid_size (h : source.toList = before ++ after) :
    String.Pos.Raw.IsValid source ⟨size before⟩ := by
  refine String.Pos.Raw.isValid_iff_exists_append.2
    ⟨String.ofList before, String.ofList after, ?_, rfl⟩
  rw [← String.ofList_append, ← h, String.ofList_toList]

/-- A range of bytes of a text: not empty, and of whole characters. -/
structure Span.Within (span : Span) (source : String) : Prop where
  nonempty : span.start < span.stop
  inside : span.stop ≤ source.utf8ByteSize
  start : String.Pos.Raw.IsValid source ⟨span.start⟩
  stop : String.Pos.Raw.IsValid source ⟨span.stop⟩

private theorem within_of_append (h : source.toList = before ++ w ++ after)
    (hw : w ≠ []) :
    Span.Within ⟨size before, size before + size w⟩ source where
  nonempty := Nat.lt_add_of_pos_right (size_pos hw)
  inside := by
    rw [← size_toList, h, size_append, size_append]
    exact Nat.le_add_right _ _
  start := isValid_size (h.trans (append_assoc _ _ _))
  stop := by
    rw [← size_append]
    exact isValid_size h

/-- The tokens of a text are at ranges of whole characters of it, one after the other,
and blanks and comments are all that stands between them. -/
structure Spaced (source : String) (tokens : List (Located Token)) : Prop where
  within : ∀ t ∈ tokens, t.span.Within source
  disjoint : tokens.Pairwise fun t u => t.span.stop ≤ u.span.start
  tiles : Tiles 0 source.toList tokens

theorem spaced_of_tokenize {tokens : List (Located Token)}
    (h : tokenize source = .ok tokens) :
    Spaced source tokens := by
  cases scanned_tokenize.1 h with
  | ok split =>
    have htiles := split.tiles rfl 0
    refine ⟨fun t ht => ?_, htiles.disjoint, htiles⟩
    obtain ⟨before, w, after, htext, hw, hspan⟩ := htiles.mem ht
    rw [Nat.zero_add] at hspan
    rw [hspan]
    exact within_of_append htext hw

/-- What is reported is a range of the text, too. -/
theorem within_of_tokenize_error {e : LexError} (h : tokenize source = .error e) :
    e.span.Within source := by
  cases scanned_tokenize.1 h with
  | @error ls rest w cause split stuck =>
    obtain ⟨hw, after, rfl⟩ := stuck.part
    rw [Nat.zero_add]
    exact within_of_append (by rw [append_assoc, split.append]) hw

/-- The tokens of a text are those of the one split of it into longest matches, with
their values and places, and a text without tokens is split up to where it is stuck. -/
theorem tokenize_iff_split (source : String) :
    (∀ tokens, tokenize source = .ok tokens ↔
      ∃ ls, Split source.toList ls [] ∧ tokens = placed 0 ls) ∧
    (∀ tokens, tokenize source = .ok tokens → Spaced source tokens) ∧
    ∀ e, tokenize source = .error e ↔
      ∃ ls rest w, Split source.toList ls rest ∧ Stuck rest e.cause w ∧
        e.span = ⟨size (covered ls), size (covered ls) + size w⟩ := by
  refine ⟨fun tokens => ?_, fun tokens => spaced_of_tokenize, fun e => ?_⟩
  · rw [scanned_tokenize]
    constructor
    · intro h
      cases h with
      | ok split => exact ⟨_, split, rfl⟩
    · rintro ⟨ls, split, rfl⟩
      exact .ok split
  · rw [scanned_tokenize]
    constructor
    · intro h
      cases h with
      | error split stuck => exact ⟨_, _, _, split, stuck, by simp only [Nat.zero_add]⟩
    · rintro ⟨ls, rest, w, split, stuck, hspan⟩
      have herror : Scanned 0 _ _ := .error split stuck
      simp only [Nat.zero_add, ← hspan] at herror
      exact herror

end Treewalk
