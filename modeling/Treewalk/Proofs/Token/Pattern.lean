import Mathlib.Computability.Language
import Treewalk.Token.Scan

/-!
# The patterns of the language

What a token is, said without a scanner: every kind of token, and each of the two things
between tokens, is a `Pattern` with the language of the texts that it matches. A text is
cut where the longest match ends (`Longest`): no pattern matches more of what remains,
and a name is none that is spelled like a reserved word.

Patterns hardly overlap. The first character of a match leaves one kind of pattern, but
for a slash, which may start a comment, and a letter, which may start a name or a
reserved word (`Pattern.starts`). So a text has at most one longest match
(`Longest.unique`), and `Segment.first` finds it:

* `Segment.first_cases` — a longest match, or a text that no pattern matches.
-/

namespace Treewalk

open List

open scoped Computability

variable {w rest : List Char} {q : Char → Bool} {s : Sign} {c : Char}

/-! ## Languages -/

/-- The texts of one character of a class. -/
def oneOf (p : Char → Bool) : Language Char :=
  {w | ∃ c, p c = true ∧ w = [c]}

/-- One item of a string: a character other than the quote and the backslash, or a
backslash and any character but a line feed. -/
def stringItem : Language Char :=
  oneOf (fun c => c ≠ '"' && c ≠ '\\') + {['\\']} * oneOf (· ≠ '\n')

/-- What the words of a text can be. -/
inductive Pattern where
  | blanks
  | comment
  | word (k : Keyword)
  | sign (s : Sign)
  | number
  | string
  | ident

namespace Pattern

/-- The texts that a pattern matches. -/
def language : Pattern → Language Char
  | blanks => oneOf isBlank * (oneOf isBlank)∗
  | comment => {['/', '/']} * (oneOf (· ≠ '\n'))∗
  | word k => {k.text.toList}
  | sign s => {s.text.toList}
  | number => oneOf isDecimal * (oneOf isDecimal)∗
  | string => {['"']} * stringItem∗ * {['"']}
  | ident => oneOf isWordStart * (oneOf isWordPart)∗

end Pattern

/-- A pattern matches these characters at the start of a text, no pattern matches more
of it, and a reserved word is not taken for a name. -/
structure Longest (text : List Char) (p : Pattern) (w : List Char) : Prop where
  fits : w ∈ p.language
  start : w <+: text
  longest : ∀ (q : Pattern) (v : List Char), v ∈ q.language → v <+: text →
    v.length ≤ w.length
  reserved : p = .ident → ∀ k : Keyword, w ≠ k.text.toList

/-- No pattern matches the start of the text. -/
def Unmatched (text : List Char) : Prop :=
  ∀ (p : Pattern) (w : List Char), w ∈ p.language → ¬w <+: text

/-! ## Membership -/

private theorem mem_oneOf {p : Char → Bool} : w ∈ oneOf p ↔ ∃ c, p c = true ∧ w = [c] :=
  Iff.rfl

private theorem mem_kstar_oneOf {p : Char → Bool} :
    w ∈ (oneOf p)∗ ↔ ∀ c ∈ w, p c = true := by
  rw [Language.mem_kstar]
  constructor
  · rintro ⟨words, rfl, hwords⟩ c hc
    obtain ⟨word, hword, hmem⟩ := mem_flatten.1 hc
    obtain ⟨d, hd, rfl⟩ := hwords word hword
    rwa [mem_singleton.1 hmem]
  · intro h
    refine ⟨w.map fun c => [c], by rw [← flatMap_def, flatMap_singleton'], ?_⟩
    intro word hword
    obtain ⟨c, hc, rfl⟩ := mem_map.1 hword
    exact ⟨c, h c hc, rfl⟩

/-- A character of one class and any number of another one. -/
theorem mem_oneOf_mul_kstar {p : Char → Bool} :
    w ∈ oneOf p * (oneOf q)∗ ↔ ∃ c rest, w = c :: rest ∧ p c = true ∧ ∀ d ∈ rest,
      q d = true := by
  rw [Language.mem_mul]
  constructor
  · rintro ⟨a, ⟨c, hc, rfl⟩, rest, hrest, rfl⟩
    exact ⟨c, rest, rfl, hc, mem_kstar_oneOf.1 hrest⟩
  · rintro ⟨c, rest, rfl, hc, hrest⟩
    exact ⟨[c], ⟨c, hc, rfl⟩, rest, mem_kstar_oneOf.2 hrest, rfl⟩

private theorem mem_singleton_mul {a : List Char} {l : Language Char} :
    w ∈ ({a} : Language Char) * l ↔ ∃ b ∈ l, a ++ b = w := by
  rw [Language.mem_mul]
  constructor
  · rintro ⟨_, rfl, b, hb, rfl⟩
    exact ⟨b, hb, rfl⟩
  · rintro ⟨b, hb, rfl⟩
    exact ⟨a, rfl, b, hb, rfl⟩

theorem mem_comment :
    w ∈ Pattern.comment.language ↔ ∃ rest, w = '/' :: '/' :: rest ∧ ∀ c ∈ rest,
      c ≠ '\n' := by
  simp only [Pattern.language, mem_singleton_mul, mem_kstar_oneOf, decide_eq_true_eq]
  constructor
  · rintro ⟨rest, hrest, rfl⟩
    exact ⟨rest, rfl, hrest⟩
  · rintro ⟨rest, rfl, hrest⟩
    exact ⟨rest, hrest, rfl⟩

/-- The opening quote and the items after it. -/
theorem mem_quote_mul_kstar : w ∈ ({['"']} : Language Char) * stringItem∗ ↔
      ∃ items : List (List Char), (∀ item ∈ items, item ∈ stringItem) ∧
        w = '"' :: items.flatten := by
  simp only [mem_singleton_mul, Language.mem_kstar]
  constructor
  · rintro ⟨_, ⟨items, rfl, hitems⟩, rfl⟩
    exact ⟨items, hitems, rfl⟩
  · rintro ⟨items, hitems, rfl⟩
    exact ⟨_, ⟨items, rfl, hitems⟩, rfl⟩

theorem mem_string : w ∈ Pattern.string.language ↔
      ∃ items : List (List Char), (∀ item ∈ items, item ∈ stringItem) ∧
        w = '"' :: items.flatten ++ ['"'] := by
  rw [Pattern.language, Language.mem_mul]
  constructor
  · rintro ⟨a, ha, _, rfl, rfl⟩
    obtain ⟨items, hitems, rfl⟩ := mem_quote_mul_kstar.1 ha
    exact ⟨items, hitems, rfl⟩
  · rintro ⟨items, hitems, rfl⟩
    exact ⟨_, mem_quote_mul_kstar.2 ⟨items, hitems, rfl⟩, _, rfl, rfl⟩

theorem mem_stringItem {item : List Char} :
    item ∈ stringItem ↔
      (∃ c, c ≠ '"' ∧ c ≠ '\\' ∧ item = [c]) ∨ ∃ c, c ≠ '\n' ∧ item = ['\\', c] := by
  simp only [stringItem, Language.mem_add, mem_singleton_mul, mem_oneOf,
    Bool.and_eq_true, decide_eq_true_eq, and_assoc]
  refine or_congr Iff.rfl ?_
  constructor
  · rintro ⟨_, ⟨c, hc, rfl⟩, rfl⟩
    exact ⟨c, hc, rfl⟩
  · rintro ⟨c, hc, rfl⟩
    exact ⟨[c], ⟨c, hc, rfl⟩, rfl⟩

/-! ## First characters -/

namespace Sign

/-- A sign is one character or two, and is found by them. -/
theorem text_cases (s : Sign) :
    (∃ c, s.text.toList = [c] ∧ Segment.sign1? c = some s) ∨
      ∃ c d, s.text.toList = [c, d] ∧ Segment.sign2? c d = some s := by
  cases s <;> first
    | exact .inl ⟨_, rfl, rfl⟩
    | exact .inr ⟨_, _, rfl, rfl⟩

private theorem eq_of_toList {t : Sign} (h : s.text.toList = t.text.toList) :
    s = t := by
  rcases s.text_cases with ⟨c, hs, hsign⟩ | ⟨c, d, hs, hsign⟩ <;>
    rcases t.text_cases with ⟨c', ht, hsign'⟩ | ⟨c', d', ht, hsign'⟩ <;>
    rw [hs, ht] at h <;> cases h <;> exact Option.some.inj (hsign.symm.trans hsign')

private theorem text_of_sign1? (h : Segment.sign1? c = some s) :
    s.text.toList = [c] := by
  unfold Segment.sign1? at h
  split at h <;> cases h <;> rfl

private theorem text_of_sign2? {d : Char} (h : Segment.sign2? c d = some s) :
    s.text.toList = [c, d] := by
  unfold Segment.sign2? at h
  split at h <;> cases h <;> rfl

end Sign

/-- Whether a sign starts with the character. -/
def isSignStart (c : Char) : Bool :=
  (Segment.sign1? c).isSome

/-- Whether a match of the pattern can start with the character. -/
def Pattern.starts : Pattern → Char → Bool
  | blanks => isBlank
  | comment => (· = '/')
  | word _ => isWordStart
  | sign _ => isSignStart
  | number => isDecimal
  | string => (· = '"')
  | ident => isWordStart

theorem toList_text_keyword (k : Keyword) :
    ∃ c rest, k.text.toList = c :: rest ∧ isWordStart c = true ∧ ∀ d ∈ rest,
      isWordPart d = true := by
  cases k <;> exact ⟨_, _, rfl, rfl, all_eq_true.1 rfl⟩

private theorem ofText?_text (k : Keyword) : Keyword.ofText? k.text = some k := by
  cases k <;> rfl

private theorem text_of_ofText? {word : String} {k : Keyword}
    (h : Keyword.ofText? word = some k) :
    k.text = word := by
  have hfound := List.find?_some h
  exact eq_of_beq hfound

private theorem keyword_eq_of_toList {k l : Keyword}
    (h : k.text.toList = l.text.toList) : k = l := by
  have htext : k.text = l.text := String.toList_inj.1 h
  exact Option.some.inj ((ofText?_text k).symm.trans (htext ▸ ofText?_text l))

theorem isSignStart_of_text (h : s.text.toList = c :: rest) : isSignStart c = true := by
  cases s <;> cases h <;> rfl

variable {p : Pattern}

theorem Pattern.starts_of_mem (h : w ∈ p.language) :
    ∃ c rest, w = c :: rest ∧ p.starts c = true := by
  cases p with
  | blanks =>
    obtain ⟨c, rest, rfl, hc, -⟩ := mem_oneOf_mul_kstar.1 h
    exact ⟨c, rest, rfl, hc⟩
  | comment =>
    obtain ⟨rest, rfl, -⟩ := mem_comment.1 h
    exact ⟨'/', _, rfl, rfl⟩
  | word k =>
    obtain ⟨c, rest, hk, hc, -⟩ := toList_text_keyword k
    exact ⟨c, rest, (show w = k.text.toList from h).trans hk, hc⟩
  | sign s =>
    have hw : w = s.text.toList := h
    rcases s.text_cases with ⟨c, hs, -⟩ | ⟨c, d, hs, -⟩
    · exact ⟨c, [], hw.trans hs, isSignStart_of_text hs⟩
    · exact ⟨c, [d], hw.trans hs, isSignStart_of_text hs⟩
  | number =>
    obtain ⟨c, rest, rfl, hc, -⟩ := mem_oneOf_mul_kstar.1 h
    exact ⟨c, rest, rfl, hc⟩
  | string =>
    obtain ⟨items, -, rfl⟩ := mem_string.1 h
    exact ⟨'"', _, rfl, rfl⟩
  | ident =>
    obtain ⟨c, rest, rfl, hc, -⟩ := mem_oneOf_mul_kstar.1 h
    exact ⟨c, rest, rfl, hc⟩

/-! ## Classes of characters

The characters that can start a match fall into five classes, told apart by their code
points. So patterns with a first character in common are of one class. -/

/-- What a match starts with. -/
inductive Lead where
  | blank | digit | letter | quote | sign
deriving DecidableEq

/-- The code points of a class. -/
def Lead.Code : Lead → Nat → Prop
  | blank, n => n = 32 ∨ n = 9 ∨ n = 10 ∨ n = 13
  | digit, n => 48 ≤ n ∧ n ≤ 57
  | letter, n => (97 ≤ n ∧ n ≤ 122) ∨ (65 ≤ n ∧ n ≤ 90) ∨ n = 95
  | quote, n => n = 34
  | sign, n => n ∈ [43, 45, 42, 47, 61, 33, 60, 62, 40, 41, 123, 125, 44, 59, 58, 46]

private theorem Lead.eq_of_code {a b : Lead} {n : Nat} (ha : a.Code n) (hb : b.Code n) :
    a = b := by
  cases a <;> cases b <;> first
    | rfl
    | simp only [Code, mem_cons, not_mem_nil, or_false] at ha hb
      omega

namespace Pattern

/-- What the matches of a pattern start with. -/
def lead : Pattern → Lead
  | blanks => .blank
  | comment => .sign
  | word _ => .letter
  | sign _ => .sign
  | number => .digit
  | string => .quote
  | ident => .letter

theorem code_of_isWordStart (h : isWordStart c = true) : Lead.letter.Code c.toNat := by
  simp only [isWordStart, Bool.or_eq_true, Bool.and_eq_true, decide_eq_true_eq] at h
  rcases h with (h | h) | rfl
  · exact .inl h
  · exact .inr (.inl h)
  · exact .inr (.inr rfl)

private theorem code_of_starts (h : p.starts c = true) : p.lead.Code c.toNat := by
  cases p with
  | blanks =>
    simp only [starts, isBlank, Bool.or_eq_true, decide_eq_true_eq] at h
    rcases h with ((rfl | rfl) | rfl) | rfl <;> simp [lead, Lead.Code]
  | comment =>
    obtain rfl : c = '/' := of_decide_eq_true h
    simp [lead, Lead.Code]
  | word k => exact code_of_isWordStart h
  | sign s =>
    have h : isSignStart c = true := h
    unfold isSignStart Segment.sign1? at h
    split at h <;> first | (simp [lead, Lead.Code]; done) | cases h
  | number =>
    simp only [starts, isDecimal, Bool.and_eq_true, decide_eq_true_eq] at h
    exact h
  | string =>
    obtain rfl : c = '"' := of_decide_eq_true h
    rfl
  | ident => exact code_of_isWordStart h

/-- The first character tells the class of a pattern. -/
theorem lead_eq_of_starts {q : Pattern} (hp : p.starts c = true)
    (hq : q.starts c = true) : p.lead = q.lead :=
  Lead.eq_of_code (code_of_starts hp) (code_of_starts hq)

theorem starts_of_append {text : List Char} (h : w ∈ p.language)
    (hstart : w <+: c :: text) : p.starts c = true := by
  obtain ⟨d, rest, rfl, hd⟩ := starts_of_mem h
  rwa [(cons_prefix_cons.1 hstart).1] at hd

/-! ## One longest match -/

private theorem not_mem_comment_of_sign (s : Sign) :
    s.text.toList ∉ comment.language := by
  intro h
  obtain ⟨rest, hs, -⟩ := mem_comment.1 h
  cases s <;> cases hs

/-- Patterns that match the same text are one and the same, or one of them is a reserved
word and the other one the names. -/
theorem eq_or_reserved {q : Pattern} (hp : w ∈ p.language) (hq : w ∈ q.language) :
    p = q ∨ (∃ k : Keyword, w = k.text.toList) ∧ (p = .ident ∨ q = .ident) := by
  obtain ⟨c, rest, rfl, hc⟩ := starts_of_mem hp
  have hlead := lead_eq_of_starts hc (starts_of_append hq (prefix_refl _))
  cases p with
  | comment =>
    cases q with
    | comment => exact .inl rfl
    | sign s =>
      exact absurd ((show _ = s.text.toList from hq) ▸ hp) (not_mem_comment_of_sign s)
    | _ => cases hlead
  | sign s =>
    cases q with
    | comment =>
      exact absurd ((show _ = s.text.toList from hp) ▸ hq) (not_mem_comment_of_sign s)
    | sign t =>
      exact .inl (congrArg sign (Sign.eq_of_toList (Eq.trans (Eq.symm hp) hq)))
    | _ => cases hlead
  | word k =>
    cases q with
    | word l =>
      exact .inl (congrArg word (keyword_eq_of_toList (Eq.trans (Eq.symm hp) hq)))
    | ident => exact .inr ⟨⟨k, hp⟩, .inr rfl⟩
    | _ => cases hlead
  | ident =>
    cases q with
    | word l => exact .inr ⟨⟨l, hq⟩, .inl rfl⟩
    | ident => exact .inl rfl
    | _ => cases hlead
  | _ => cases q <;> first | exact .inl rfl | cases hlead

end Pattern

/-- A text has at most one longest match. -/
theorem Longest.unique {text v : List Char} {q : Pattern} (h : Longest text p w)
    (h' : Longest text q v) :
    p = q ∧ w = v := by
  have hlength : w.length = v.length :=
    Nat.le_antisymm (h'.longest p w h.fits h.start) (h.longest q v h'.fits h'.start)
  obtain rfl : w = v :=
    (prefix_of_prefix_length_le h.start h'.start hlength.le).eq_of_length hlength
  refine ⟨?_, rfl⟩
  rcases Pattern.eq_or_reserved h.fits h'.fits with heq | ⟨⟨k, hk⟩, hident | hident⟩
  · exact heq
  · exact absurd hk (h.reserved hident k)
  · exact absurd hk (h'.reserved hident k)

/-! ## Runs of a class -/

private theorem prefix_takeWhile {v : List Char} (h : v <+: rest)
    (hall : ∀ d ∈ v, q d = true) : v <+: rest.takeWhile q := by
  obtain ⟨after, rfl⟩ := h
  rw [takeWhile_append_of_pos hall]
  exact prefix_append _ _

/-- If every match that starts with a character goes on in a class, then the longest run
in this class is the longest match. -/
private theorem longest_run (hfits : c :: rest.takeWhile q ∈ p.language)
    (hclass : ∀ (r : Pattern) (v : List Char), c :: v ∈ r.language → ∀ d ∈ v,
      q d = true)
    (hreserved : p = .ident → ∀ k : Keyword, c :: rest.takeWhile q ≠ k.text.toList) :
    Longest (c :: rest) p (c :: rest.takeWhile q) where
  fits := hfits
  start := cons_prefix_cons.2 ⟨rfl, takeWhile_prefix q⟩
  longest r v hv hstart := by
    obtain ⟨d, tail, rfl, -⟩ := Pattern.starts_of_mem hv
    obtain ⟨rfl, htail⟩ := cons_prefix_cons.1 hstart
    exact Nat.succ_le_succ (prefix_takeWhile htail (hclass r tail hv)).length_le
  reserved := hreserved

private theorem mem_takeWhile : ∀ d ∈ rest.takeWhile q, q d = true :=
  all_eq_true.1 all_takeWhile

private theorem longest_class (hlanguage : p.language = oneOf q * (oneOf q)∗)
    (hstarts : p.starts c = true) (hc : q c = true)
    (honly : ∀ r : Pattern, p.lead = r.lead → r = p) (hident : p ≠ .ident) :
    Longest (c :: rest) p (c :: rest.takeWhile q) := by
  refine longest_run ?_ (fun r v hv => ?_) fun h => absurd h hident
  · rw [hlanguage]
    exact mem_oneOf_mul_kstar.2 ⟨c, _, rfl, hc, mem_takeWhile⟩
  · obtain rfl := honly r
      (Pattern.lead_eq_of_starts hstarts (Pattern.starts_of_append hv (prefix_refl _)))
    rw [hlanguage] at hv
    obtain ⟨d, tail, heq, -, htail⟩ := mem_oneOf_mul_kstar.1 hv
    cases heq
    exact htail

/-! ## What is cut off a text -/

/-- What the characters of a match are. -/
def Pattern.kind : Pattern → List Char → Segment.Kind
  | blanks, _ => .skipped
  | comment, _ => .skipped
  | word k, _ => .token (.word k)
  | sign s, _ => .token (.sign s)
  | number, w => Segment.numberKind w
  | string, w => .token (.string (String.ofList (unescape w.tail.dropLast)))
  | ident, w => .token (.ident (String.ofList w))

/-- The part of a text that is reported where no pattern matches: of a string without an
end, the quote and all complete items after it, and else one character. -/
inductive Refused : List Char → List Char → Prop where
  | string {text w : List Char} (fits : w ∈ ({['"']} : Language Char) * stringItem∗)
      (start : w <+: text) (longest : ∀ v ∈ ({['"']} : Language Char) * stringItem∗,
        v <+: text → v.length ≤ w.length) :
      Refused text w
  | character {c : Char} {rest : List Char} (hc : c ≠ '"') : Refused (c :: rest) [c]

namespace Segment

/-- The segment is the longest match. -/
def IsLongest (text : List Char) (segment : Segment) : Prop :=
  ∃ p, Longest text p segment.chars ∧ segment.kind = p.kind segment.chars

/-- The segment is what is reported of a text that no pattern matches. -/
structure IsRefused (text : List Char) (segment : Segment) : Prop where
  unmatched : Unmatched text
  kind : segment.kind = .invalid (.unexpected (String.ofList segment.chars))
  chars : Refused text segment.chars

variable {c : Char} {rest : List Char}

private theorem longest_blanks (hc : isBlank c = true) :
    Longest (c :: rest) .blanks (c :: rest.takeWhile isBlank) :=
  longest_class rfl hc hc (fun r h => by cases r <;> first | rfl | cases h) nofun

private theorem longest_number (hc : isDecimal c = true) :
    Longest (c :: rest) .number (c :: rest.takeWhile isDecimal) :=
  longest_class rfl hc hc (fun r h => by cases r <;> first | rfl | cases h) nofun

/-- After two slashes everything up to the end of the line is a comment. -/
private theorem longest_comment (hrest : rest.head? = some '/') :
    Longest ('/' :: rest) .comment ('/' :: rest.takeWhile (· ≠ '\n')) := by
  obtain ⟨after, rfl⟩ : ∃ after, rest = '/' :: after := by
    cases rest with
    | nil => cases hrest
    | cons d after =>
      cases hrest
      exact ⟨after, rfl⟩
  refine longest_run ?_ (fun r v hv => ?_) nofun
  · refine mem_comment.2 ⟨after.takeWhile (· ≠ '\n'), rfl, fun c hc => ?_⟩
    exact of_decide_eq_true (mem_takeWhile c hc)
  · have hlead := Pattern.lead_eq_of_starts (p := .comment) (c := '/') rfl
      (Pattern.starts_of_append hv (prefix_refl _))
    cases r with
    | comment =>
      obtain ⟨tail, heq, htail⟩ := mem_comment.1 hv
      cases heq
      intro d hd
      rcases mem_cons.1 hd with rfl | hd
      · rfl
      · exact decide_eq_true (htail d hd)
    | sign s =>
      have heq : '/' :: v = s.text.toList := hv
      cases s <;> cases heq
      exact nofun
    | _ => cases hlead

/-- What starts with a letter goes on with letters and digits. -/
private theorem wordPart_of_mem (hc : isWordStart c = true) (r : Pattern)
    (v : List Char) (hv : c :: v ∈ r.language) : ∀ d ∈ v, isWordPart d = true := by
  have hlead := Pattern.lead_eq_of_starts (p := .ident) hc
    (Pattern.starts_of_append hv (prefix_refl _))
  cases r with
  | word k =>
    obtain ⟨d, tail, hk, -, htail⟩ := toList_text_keyword k
    cases (show c :: v = k.text.toList from hv).trans hk
    exact htail
  | ident =>
    obtain ⟨d, tail, heq, -, htail⟩ := mem_oneOf_mul_kstar.1 hv
    cases heq
    exact htail
  | _ => cases hlead

/-- A word is the reserved word of this spelling, or a name where there is none. -/
private theorem longest_word (hc : isWordStart c = true) :
    (∃ k : Keyword, c :: rest.takeWhile isWordPart = k.text.toList ∧
        Longest (c :: rest) (.word k) (c :: rest.takeWhile isWordPart)) ∨
      ((∀ k : Keyword, c :: rest.takeWhile isWordPart ≠ k.text.toList) ∧
        Longest (c :: rest) .ident (c :: rest.takeWhile isWordPart)) := by
  by_cases hk : ∃ k : Keyword, c :: rest.takeWhile isWordPart = k.text.toList
  · obtain ⟨k, hk⟩ := hk
    exact .inl ⟨k, hk, longest_run hk (wordPart_of_mem hc) nofun⟩
  · have hnone : ∀ k : Keyword, c :: rest.takeWhile isWordPart ≠ k.text.toList :=
      fun k h => hk ⟨k, h⟩
    refine .inr ⟨hnone, longest_run ?_ (wordPart_of_mem hc) fun _ => hnone⟩
    exact mem_oneOf_mul_kstar.2 ⟨c, _, rfl, hc, mem_takeWhile⟩

/-! ## Strings -/

theorem stringItems_item_append {item : List Char} (h : item ∈ stringItem)
    (text : List Char) :
    stringItems (item ++ text) =
      (item ++ (stringItems text).1, (stringItems text).2) := by
  rcases mem_stringItem.1 h with ⟨c, hquote, hslash, rfl⟩ | ⟨c, hc, rfl⟩
  · rw [singleton_append, stringItems.eq_def]
    split <;> simp_all
  · rw [cons_append, singleton_append, stringItems, if_neg hc]
    rfl

/-- Complete items at the start of a text are found, and those after them. -/
theorem stringItems_flatten_append {items : List (List Char)}
    (h : ∀ item ∈ items, item ∈ stringItem) (text : List Char) :
    stringItems (items.flatten ++ text) =
      (items.flatten ++ (stringItems text).1, (stringItems text).2) := by
  induction items with
  | nil => rfl
  | cons item items ih =>
    rw [flatten_cons, append_assoc, stringItems_item_append (h item mem_cons_self),
      ih fun other hother => h other (mem_cons_of_mem _ hother), append_assoc]

/-- What is found are complete items. -/
private theorem exists_items (text : List Char) :
    ∃ items : List (List Char), (∀ item ∈ items, item ∈ stringItem) ∧
      (stringItems text).1 = items.flatten := by
  have hcons : ∀ {item rest : List Char}, item ∈ stringItem →
      (∃ items : List (List Char), (∀ item ∈ items, item ∈ stringItem) ∧
        rest = items.flatten) →
      ∃ items : List (List Char), (∀ item ∈ items, item ∈ stringItem) ∧
        item ++ rest = items.flatten := by
    rintro item _ hitem ⟨items, hitems, rfl⟩
    exact ⟨item :: items, forall_mem_cons.2 ⟨hitem, hitems⟩, rfl⟩
  fun_induction stringItems text with
  | case2 c rest hc items after heq ih =>
    rw [heq] at ih
    exact hcons (mem_stringItem.2 (.inr ⟨c, hc, rfl⟩)) ih
  | case5 c rest hslash hlast hquote items after heq ih =>
    rw [heq] at ih
    have hplain : c ≠ '\\' := by
      intro h
      cases rest with
      | nil => exact hlast h rfl
      | cons d rest => exact hslash d rest h rfl
    exact hcons (mem_stringItem.2 (.inl ⟨c, hquote, hplain, rfl⟩)) ih
  | _ => exact ⟨[], forall_mem_nil _, rfl⟩

/-- A string that matches ends where the items end. -/
theorem stringItems_of_match {p : Pattern} {v : List Char} (hv : v ∈ p.language)
    (hstart : v <+: '"' :: rest) :
    p = .string ∧ ∃ items after, stringItems rest = (items, '"' :: after) ∧
      v = '"' :: items ++ ['"'] := by
  have hlead := Pattern.lead_eq_of_starts (p := .string) (c := '"') rfl
    (Pattern.starts_of_append hv hstart)
  cases p with
  | string =>
    obtain ⟨items, hitems, rfl⟩ := mem_string.1 hv
    rw [cons_append, cons_prefix_cons] at hstart
    obtain ⟨after, hafter⟩ := hstart.2
    refine ⟨rfl, items.flatten, after, ?_, rfl⟩
    rw [← hafter, append_assoc, stringItems_flatten_append hitems]
    simp [stringItems]
  | _ => cases hlead

private theorem refused_items (rest : List Char) :
    Refused ('"' :: rest) ('"' :: (stringItems rest).1) := by
  obtain ⟨items, hitems, heq⟩ := exists_items rest
  refine .string (mem_quote_mul_kstar.2 ⟨items, hitems, by rw [heq]⟩)
    ?_ fun v hv hstart => ?_
  · exact cons_prefix_cons.2 ⟨rfl, ⟨_, stringItems_append rest⟩⟩
  · obtain ⟨others, hothers, rfl⟩ := mem_quote_mul_kstar.1 hv
    obtain ⟨after, rfl⟩ := (cons_prefix_cons.1 hstart).2
    rw [stringItems_flatten_append hothers]
    simp

private theorem string_cases (rest : List Char) :
    IsLongest ('"' :: rest) (string rest) ∨ IsRefused ('"' :: rest) (string rest) := by
  unfold string
  split
  · rename_i items after heq
    refine .inl ⟨.string, ⟨?_, ?_, ?_, nofun⟩, by simp [Pattern.kind]⟩
    · obtain ⟨found, hfound, hitems⟩ := exists_items rest
      rw [heq] at hitems
      exact mem_string.2 ⟨found, hfound, by rw [← hitems]⟩
    · have happend := stringItems_append rest
      rw [heq] at happend
      exact ⟨after, by simp [← happend]⟩
    · intro q v hv hstart
      obtain ⟨-, items', after', heq', rfl⟩ := stringItems_of_match hv hstart
      rw [heq] at heq'
      cases heq'
      exact Nat.le_refl _
  · rename_i items after hopen heq
    refine .inr ⟨fun p v hv hstart => ?_, rfl, ?_⟩
    · obtain ⟨-, items', after', heq', -⟩ := stringItems_of_match hv hstart
      rw [heq] at heq'
      cases heq'
      exact hopen _ rfl
    · have hrefused := refused_items rest
      rw [heq] at hrefused
      exact hrefused

/-! ## Signs -/

/-- A match that starts with a character of none of the other classes, and is no
comment, is a sign. -/
private theorem sign_of_match (hblank : ¬isBlank c = true)
    (hcomment : ¬(c = '/' ∧ rest.head? = some '/')) (hdigit : ¬isDecimal c = true)
    (hletter : ¬isWordStart c = true) (hquote : c ≠ '"') {q : Pattern} {v : List Char}
    (hv : v ∈ q.language) (hstart : v <+: c :: rest) :
    ∃ s : Sign, q = .sign s ∧ v = s.text.toList := by
  have hstarts := Pattern.starts_of_append hv hstart
  cases q with
  | sign s => exact ⟨s, rfl, hv⟩
  | comment =>
    obtain ⟨tail, rfl, -⟩ := mem_comment.1 hv
    obtain ⟨rfl, htail⟩ := cons_prefix_cons.1 hstart
    obtain ⟨after, rfl⟩ := htail
    exact absurd ⟨rfl, rfl⟩ hcomment
  | blanks => exact absurd hstarts hblank
  | number => exact absurd hstarts hdigit
  | string => exact absurd (of_decide_eq_true hstarts) hquote
  | word k => exact absurd hstarts hletter
  | ident => exact absurd hstarts hletter

/-- A sign at the start of a text is the first character or the first two. -/
private theorem sign_prefix (h : s.text.toList <+: c :: rest) :
    (s.text.toList = [c] ∧ sign1? c = some s) ∨
      ∃ d after, rest = d :: after ∧ s.text.toList = [c, d] ∧ sign2? c d = some s := by
  rcases s.text_cases with ⟨c', htext, hsign⟩ | ⟨c', d, htext, hsign⟩
  · rw [htext] at h
    obtain ⟨rfl, -⟩ := cons_prefix_cons.1 h
    exact .inl ⟨htext, hsign⟩
  · rw [htext] at h
    obtain ⟨rfl, after, rfl⟩ := cons_prefix_cons.1 h
    exact .inr ⟨d, after, rfl, htext, hsign⟩

private theorem sign_cases
    (honly : ∀ (q : Pattern) (v : List Char), v ∈ q.language → v <+: c :: rest →
      ∃ s : Sign, q = .sign s ∧ v = s.text.toList) (hquote : c ≠ '"') :
    IsLongest (c :: rest) (sign c rest) ∨ IsRefused (c :: rest) (sign c rest) := by
  unfold sign
  split
  · rename_i s htwo
    obtain ⟨d, hd, hsign⟩ := Option.bind_eq_some_iff.1 htwo
    obtain ⟨after, rfl⟩ := List.head?_eq_some_iff.1 hd
    have htext := Sign.text_of_sign2? hsign
    refine .inl
      ⟨.sign s, ⟨htext.symm, ⟨after, rfl⟩, fun q v hv hstart => ?_, nofun⟩, rfl⟩
    obtain ⟨t, -, rfl⟩ := honly q v hv hstart
    rcases sign_prefix hstart with ⟨htext, -⟩ | ⟨d', after', -, htext, -⟩ <;>
      rw [htext] <;> simp
  · rename_i htwo
    have hone : ∀ t : Sign, t.text.toList <+: c :: rest → t.text.toList = [c] ∧
        sign1? c = some t := by
      intro t hstart
      rcases sign_prefix hstart with h | ⟨d, after, rfl, -, hsign⟩
      · exact h
      · exact absurd (htwo.symm.trans hsign) nofun
    split
    · rename_i s hsign
      have htext := Sign.text_of_sign1? hsign
      refine .inl
        ⟨.sign s, ⟨htext.symm, ⟨rest, rfl⟩, fun q v hv hstart => ?_, nofun⟩, rfl⟩
      obtain ⟨t, -, rfl⟩ := honly q v hv hstart
      rw [(hone t hstart).1]
    · rename_i hsign
      refine .inr ⟨fun q v hv hstart => ?_, rfl, .character hquote⟩
      obtain ⟨t, -, rfl⟩ := honly q v hv hstart
      exact absurd (hsign.symm.trans (hone t hstart).2) nofun

/-! ## All segments -/

theorem wordKind_text (k : Keyword) : wordKind k.text.toList = .token (.word k) := by
  rw [wordKind, String.ofList_toList, ofText?_text]

theorem wordKind_of_ne {chars : List Char} (h : ∀ k : Keyword, chars ≠ k.text.toList) :
    wordKind chars = .token (.ident (String.ofList chars)) := by
  simp only [wordKind]
  split
  · rename_i k hk
    exact absurd (by rw [text_of_ofText? hk, String.toList_ofList]) (h k)
  · rfl

/-- What is cut off a text is its longest match, if it has one. -/
theorem first_cases (c : Char) (rest : List Char) :
    IsLongest (c :: rest) (first c rest) ∨ IsRefused (c :: rest) (first c rest) := by
  unfold first
  split
  · rename_i hblank
    exact .inl ⟨.blanks, longest_blanks hblank, rfl⟩
  rename_i hblank
  split
  · rename_i hcomment
    simp only [Bool.and_eq_true, decide_eq_true_eq] at hcomment
    obtain ⟨rfl, hcomment⟩ := hcomment
    exact .inl ⟨.comment, longest_comment hcomment, rfl⟩
  rename_i hcomment
  split
  · rename_i hdigit
    exact .inl ⟨.number, longest_number hdigit, rfl⟩
  rename_i hdigit
  split
  · rename_i hletter
    rcases @longest_word c rest hletter with ⟨k, hk, hlongest⟩ | ⟨hnone, hlongest⟩
    · exact .inl ⟨.word k, hlongest, (congrArg wordKind hk).trans (wordKind_text k)⟩
    · exact .inl ⟨.ident, hlongest, wordKind_of_ne hnone⟩
  rename_i hletter
  split
  · rename_i hquote
    rw [hquote]
    exact string_cases rest
  · rename_i hquote
    refine sign_cases (fun q v => sign_of_match hblank ?_ hdigit hletter hquote) hquote
    simpa using hcomment

end Segment

end Treewalk
