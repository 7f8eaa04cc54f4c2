import Treewalk.Span
import Treewalk.Token.Basic

/-!
# From text to tokens

A text is cut into segments from left to right, each the longest prefix of what remains
that is a token, a run of blanks or a comment. `Segment.first` cuts one segment off a
text that starts with a given character; which kind it is depends on that character and,
for the signs of two characters and for comments, on the next one. A word spelled like a
reserved word is that word.

`tokenize` gives the tokens with their byte ranges, or the first segment that is no
token: a digit run beyond the largest number, a string without an end, or a character
that starts nothing. Of a string without an end, the segment holds the opening quote and
the complete items after it.
-/

namespace Treewalk

/-! ## Character classes -/

/-- Space, tab, line feed and carriage return. No other character separates tokens. -/
def isBlank (c : Char) : Bool :=
  c = ' ' || c = '\t' || c = '\n' || c = '\r'

/-- A character that may start a name. -/
def isWordStart (c : Char) : Bool :=
  ('a' ≤ c && c ≤ 'z') || ('A' ≤ c && c ≤ 'Z') || c = '_'

/-- A decimal digit. -/
def isDecimal (c : Char) : Bool :=
  '0' ≤ c && c ≤ '9'

/-- A character that may go on a name. -/
def isWordPart (c : Char) : Bool :=
  isWordStart c || isDecimal c

/-! ## Values of tokens -/

/-- The number that a run of digits denotes. -/
def decimalValue (digits : List Char) : Nat :=
  digits.foldl (fun n c => 10 * n + (c.toNat - '0'.toNat)) 0

/-- The value of a string body: five escapes are known, any other backslash stands for
itself. -/
def unescape : List Char → List Char
  | '\\' :: 'n' :: rest => '\n' :: unescape rest
  | '\\' :: 't' :: rest => '\t' :: unescape rest
  | '\\' :: 'r' :: rest => '\r' :: unescape rest
  | '\\' :: '\\' :: rest => '\\' :: unescape rest
  | '\\' :: '"' :: rest => '"' :: unescape rest
  | '\\' :: c :: rest => '\\' :: c :: unescape rest
  | c :: rest => c :: unescape rest
  | [] => []

/-- The complete items at the start of a text, and what follows them. An item is a
character other than the quote and the backslash, or a backslash with any character
after it but a line feed. -/
def stringItems : List Char → List Char × List Char
  | '\\' :: c :: rest =>
    if c = '\n' then ([], '\\' :: c :: rest)
    else
      let (items, after) := stringItems rest
      ('\\' :: c :: items, after)
  | ['\\'] => ([], ['\\'])
  | '"' :: rest => ([], '"' :: rest)
  | c :: rest =>
    let (items, after) := stringItems rest
    (c :: items, after)
  | [] => ([], [])

/-! ## Segments -/

/-- Why a segment is no token. -/
inductive LexCause where
  /-- No token starts like this. -/
  | unexpected (slice : String)
  /-- A number larger than the largest one. -/
  | numberTooLarge (digits : String)
deriving DecidableEq

/-- What the characters of a segment are. -/
inductive Segment.Kind where
  /-- Blanks or a comment. -/
  | skipped
  | token (t : Token)
  | invalid (cause : LexCause)
deriving DecidableEq

/-- A segment: its characters, what they are, and the text after it. -/
structure Segment where
  kind : Segment.Kind
  chars : List Char
  rest : List Char

namespace Segment

/-- The sign that one character spells, if any. -/
def sign1? : Char → Option Sign
  | '+' => some .plus
  | '-' => some .minus
  | '*' => some .star
  | '/' => some .slash
  | '=' => some .eq
  | '!' => some .bang
  | '<' => some .lt
  | '>' => some .gt
  | '(' => some .lparen
  | ')' => some .rparen
  | '{' => some .lbrace
  | '}' => some .rbrace
  | ',' => some .comma
  | ';' => some .semi
  | ':' => some .colon
  | '.' => some .dot
  | _ => none

/-- The sign that two characters spell, if any. -/
def sign2? : Char → Char → Option Sign
  | '=', '=' => some .eqEq
  | '!', '=' => some .notEq
  | '<', '=' => some .ltEq
  | '>', '=' => some .gtEq
  | _, _ => none

/-- The first character and the longest run after it of characters in a class. -/
def run (kind : List Char → Kind) (p : Char → Bool) (c : Char) (rest : List Char) :
    Segment :=
  let chars := c :: rest.takeWhile p
  ⟨kind chars, chars, rest.dropWhile p⟩

/-- A digit run, refused when it exceeds the largest number. -/
def numberKind (digits : List Char) : Kind :=
  let n := decimalValue digits
  if n < 0x8000000000000000 then .token (.number (Int64.ofNat n))
  else .invalid (.numberTooLarge (String.ofList digits))

/-- A reserved word or a name. -/
def wordKind (chars : List Char) : Kind :=
  let word := String.ofList chars
  match Keyword.ofText? word with
  | some k => .token (.word k)
  | none => .token (.ident word)

/-- A string, once its opening quote is read. -/
def string (rest : List Char) : Segment :=
  match stringItems rest with
  | (items, '"' :: after) =>
    ⟨.token (.string (String.ofList (unescape items))), '"' :: items ++ ['"'], after⟩
  | (items, after) =>
    ⟨.invalid (.unexpected (String.ofList ('"' :: items))), '"' :: items, after⟩

/-- A sign of two characters if there is one, else of one, else nothing that is
known. -/
def sign (c : Char) (rest : List Char) : Segment :=
  match rest.head?.bind (sign2? c) with
  | some s => ⟨.token (.sign s), c :: rest.take 1, rest.drop 1⟩
  | none =>
    match sign1? c with
    | some s => ⟨.token (.sign s), [c], rest⟩
    | none => ⟨.invalid (.unexpected (String.ofList [c])), [c], rest⟩

/-- The first segment of the text `c :: rest`. -/
def first (c : Char) (rest : List Char) : Segment :=
  if isBlank c then run (fun _ => .skipped) isBlank c rest
  else if c = '/' && rest.head? = some '/'
    then run (fun _ => .skipped) (· ≠ '\n') c rest
  else if isDecimal c then run numberKind isDecimal c rest
  else if isWordStart c then run wordKind isWordPart c rest
  else if c = '"' then string rest
  else sign c rest

/-! Nothing is lost: the characters of a segment and what follows it are the text. -/

private theorem run_append (kind : List Char → Kind) (p : Char → Bool) (c : Char)
    (rest : List Char) :
    (run kind p c rest).chars ++ (run kind p c rest).rest = c :: rest := by
  simp [run, List.takeWhile_append_dropWhile]

theorem stringItems_append (text : List Char) :
    (stringItems text).1 ++ (stringItems text).2 = text := by
  fun_induction stringItems text <;> simp_all

private theorem string_append (rest : List Char) :
    (string rest).chars ++ (string rest).rest = '"' :: rest := by
  have h := stringItems_append rest
  unfold string
  split <;> simp_all

private theorem sign_append (c : Char) (rest : List Char) :
    (sign c rest).chars ++ (sign c rest).rest = c :: rest := by
  unfold sign
  split
  · simpa using List.take_append_drop 1 rest
  · split <;> simp

theorem first_append (c : Char) (rest : List Char) :
    (first c rest).chars ++ (first c rest).rest = c :: rest := by
  unfold first
  split
  · exact run_append _ _ _ _
  · split
    · exact run_append _ _ _ _
    · split
      · exact run_append _ _ _ _
      · split
        · exact run_append _ _ _ _
        · split
          · next h => rw [string_append, h]
          · exact sign_append _ _

private theorem first_chars_ne_nil (c : Char) (rest : List Char) :
    (first c rest).chars ≠ [] := by
  unfold first run string sign
  repeat' split
  all_goals simp

/-- What follows a segment is shorter than the text it was cut from. -/
theorem first_rest_length_lt (c : Char) (rest : List Char) :
    (first c rest).rest.length < rest.length + 1 := by
  have happend := congrArg List.length (first_append c rest)
  have hpos := List.length_pos_iff.mpr (first_chars_ne_nil c rest)
  simp only [List.length_append, List.length_cons] at happend
  omega

end Segment

/-! ## Whole texts -/

/-- Why and where a text has no tokens. -/
structure LexError where
  cause : LexCause
  span : Span
deriving DecidableEq

namespace LexError

/-- The wording of a lexical error. -/
def message (e : LexError) : String :=
  match e.cause with
  | .unexpected slice => "unexpected character: " ++ Text.quoted slice
  | .numberTooLarge digits => "integer literal out of range: " ++ digits

end LexError

/-- The number of bytes that characters take in UTF-8. -/
def byteLength (chars : List Char) : Nat :=
  chars.foldl (fun length c => length + c.utf8Size) 0

private theorem foldl_utf8Size (chars : List Char) (n : Nat) :
    chars.foldl (fun length c => length + c.utf8Size) n = n + byteLength chars := by
  induction chars generalizing n with
  | nil => simp [byteLength]
  | cons c rest ih =>
    simp only [byteLength, List.foldl_cons]
    rw [ih, ih (0 + c.utf8Size)]
    omega

theorem byteLength_cons (c : Char) (rest : List Char) :
    byteLength (c :: rest) = c.utf8Size + byteLength rest := by
  rw [byteLength, List.foldl_cons, foldl_utf8Size, Nat.zero_add]

/-- The tokens of the text that starts at byte `start`. -/
def tokenizeFrom (start : Nat) (text : List Char) :
    Except LexError (List (Located Token)) :=
  match text with
  | [] => .ok []
  | c :: rest =>
    let segment := Segment.first c rest
    let span : Span := ⟨start, start + byteLength segment.chars⟩
    match segment.kind with
    | .skipped => tokenizeFrom span.stop segment.rest
    | .token t =>
      match tokenizeFrom span.stop segment.rest with
      | .ok tokens => .ok (⟨t, span⟩ :: tokens)
      | .error e => .error e
    | .invalid cause => .error ⟨cause, span⟩
termination_by text.length
decreasing_by all_goals exact Segment.first_rest_length_lt c rest

/-- The tokens of a source text with their places, or its first fault. -/
def tokenize (source : String) : Except LexError (List (Located Token)) :=
  tokenizeFrom 0 source.toList

end Treewalk
