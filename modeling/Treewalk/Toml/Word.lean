import Treewalk.Toml.Basic

/-!
# Words of TOML

The smallest pieces of a document: blanks and comments, strings in their four forms,
keys, and the words that stand for numbers and truth values. A reader takes a piece off
the front of the text and gives the rest, or fails.
-/

namespace Treewalk.Toml

/-! ## Blanks and comments -/

/-- Leaves out spaces and tabs. -/
def skipBlanks (text : List Char) : List Char :=
  text.dropWhile fun c => c = ' ' || c = '\t'

/-- Whether a character may stand in a comment or, escapes and quotes apart, in a
string. -/
def isPlain (c : Char) : Bool :=
  c = '\t' || (' ' ≤ c && c ≠ '\x7f')

/-- Takes a line end. -/
def newline? : List Char → Option (List Char)
  | '\n' :: rest => some rest
  | '\r' :: '\n' :: rest => some rest
  | _ => none

/-- Leaves out a comment up to the end of its line. -/
def skipComment : List Char → List Char
  | '#' :: rest => rest.dropWhile isPlain
  | text => text

/-- Takes the end of a line, with blanks and a comment before it. -/
def endLine? (text : List Char) : Option (List Char) :=
  match skipComment (skipBlanks text) with
  | [] => some []
  | rest => newline? rest

/-- Leaves out blanks, line ends and comments. -/
def skipFiller (inComment : Bool) : List Char → List Char
  | [] => []
  | '\n' :: rest => skipFiller false rest
  | '\r' :: '\n' :: rest => skipFiller false rest
  | c :: rest =>
    if inComment then if isPlain c then skipFiller true rest else c :: rest
    else if c = ' ' || c = '\t' then skipFiller false rest
    else if c = '#' then skipFiller true rest
    else c :: rest

/-! ## Numbers -/

/-- The value of a digit in a base. -/
def digit? (base : Nat) (c : Char) : Option Nat :=
  let value :=
    if c.isDigit then c.toNat - '0'.toNat
    else if 'a' ≤ c && c ≤ 'f' then c.toNat - 'a'.toNat + 10
    else if 'A' ≤ c && c ≤ 'F' then c.toNat - 'A'.toNat + 10
    else base
  if value < base then some value else none

/-- The value of digits, where single underscores may stand between two of them. -/
def digits? (base : Nat) (value : Nat) (afterDigit : Bool) : List Char → Option Nat
  | [] => if afterDigit then some value else none
  | '_' :: rest => if afterDigit then digits? base value false rest else none
  | c :: rest =>
    match digit? base c with
    | some d => digits? base (base * value + d) true rest
    | none => none

/-- The value of a decimal number without a sign; no zero stands before other digits. -/
def decimal? : List Char → Option Nat
  | ['0'] => some 0
  | '0' :: _ => none
  | word => digits? 10 0 false word

/-- The value of a whole number. -/
def integer? (word : List Char) : Option Int :=
  let value := match word with
    | '0' :: 'x' :: rest => (digits? 16 0 false rest).map Int.ofNat
    | '0' :: 'o' :: rest => (digits? 8 0 false rest).map Int.ofNat
    | '0' :: 'b' :: rest => (digits? 2 0 false rest).map Int.ofNat
    | '+' :: rest => (decimal? rest).map Int.ofNat
    | '-' :: rest => (decimal? rest).map fun n => -(n : Int)
    | rest => (decimal? rest).map Int.ofNat
  value.filter fun n => decide (Int64.minValue.toInt ≤ n) &&
    decide (n ≤ Int64.maxValue.toInt)

/-- A word without the sign at its front. -/
def unsigned : List Char → List Char
  | '+' :: rest => rest
  | '-' :: rest => rest
  | word => word

/-- Whether the rest of a word is an exponent. -/
def isExponent : List Char → Bool
  | 'e' :: rest => (digits? 10 0 false (unsigned rest)).isSome
  | 'E' :: rest => (digits? 10 0 false (unsigned rest)).isSome
  | _ => false

/-- Whether a word is a number with a fraction or an exponent. -/
def isFloat (word : List Char) : Bool :=
  let body := unsigned word
  let isMark (c : Char) : Bool := c = '.' || c = 'e' || c = 'E'
  body == "inf".toList || body == "nan".toList ||
    (decimal? (body.takeWhile fun c => !isMark c)).isSome &&
      match body.dropWhile fun c => !isMark c with
      | '.' :: rest =>
        let fraction := rest.takeWhile fun c => !isMark c
        let exponent := rest.dropWhile fun c => !isMark c
        (digits? 10 0 false fraction).isSome &&
          (exponent.isEmpty || isExponent exponent)
      | rest => isExponent rest

/-- The value of a bare word. -/
def ofWord? (word : List Char) : Option Toml :=
  if word = "true".toList then some (.bool true)
  else if word = "false".toList then some (.bool false)
  else
    match integer? word with
    | some n => some (.integer n)
    | none => if isFloat word then some .float else none

/-- Whether a character can be part of a bare word. -/
def isWordChar (c : Char) : Bool :=
  c.isAlphanum || c = '_' || c = '+' || c = '-' || c = '.'

/-! ## Strings -/

/-- The character with that code, given by hexadecimal digits. -/
def scalar? (digits : List Char) : Option Char := do
  let code ← digits.foldlM (fun value c => (digit? 16 c).map (16 * value + ·)) 0
  if code < 0xd800 || (0xdfff < code && code ≤ 0x10ffff) then
    some (Char.ofNat code)
  else
    none

/-- The character that a backslash and this character stand for. -/
def escape? : Char → Option Char
  | 'b' => some '\x08'
  | 't' => some '\t'
  | 'n' => some '\n'
  | 'f' => some '\x0c'
  | 'r' => some '\r'
  | '"' => some '"'
  | '\\' => some '\\'
  | _ => none

/-- The text read so far, whose characters were put in front one by one. -/
def collected (chars : List Char) : String :=
  String.ofList chars.reverse

/-- Takes a string up to its closing quote, with escapes. -/
def basic? (done : List Char) : List Char → Option (String × List Char)
  | [] => none
  | '"' :: rest => some (collected done, rest)
  | '\\' :: 'u' :: a :: b :: c :: d :: rest =>
    match scalar? [a, b, c, d] with
    | some char => basic? (char :: done) rest
    | none => none
  | '\\' :: 'U' :: a :: b :: c :: d :: e :: f :: g :: h :: rest =>
    match scalar? [a, b, c, d, e, f, g, h] with
    | some char => basic? (char :: done) rest
    | none => none
  | '\\' :: c :: rest =>
    match escape? c with
    | some char => basic? (char :: done) rest
    | none => none
  | c :: rest => if isPlain c then basic? (c :: done) rest else none

/-- Takes a string up to its closing apostrophe, without escapes. -/
def literal? (done : List Char) : List Char → Option (String × List Char)
  | [] => none
  | '\'' :: rest => some (collected done, rest)
  | c :: rest => if isPlain c then literal? (c :: done) rest else none

/-- Takes a string of several lines up to its three closing quotes, to which up to two
more may be joined. After a backslash at the end of a line, blanks and line ends are
skipped. -/
def multiBasic? (skipping : Bool) (done : List Char) :
    List Char → Option (String × List Char)
  | [] => none
  | '"' :: '"' :: '"' :: '"' :: '"' :: rest =>
    some (collected ('"' :: '"' :: done), rest)
  | '"' :: '"' :: '"' :: '"' :: rest => some (collected ('"' :: done), rest)
  | '"' :: '"' :: '"' :: rest => some (collected done, rest)
  | '\\' :: 'u' :: a :: b :: c :: d :: rest =>
    match scalar? [a, b, c, d] with
    | some char => multiBasic? false (char :: done) rest
    | none => none
  | '\\' :: 'U' :: a :: b :: c :: d :: e :: f :: g :: h :: rest =>
    match scalar? [a, b, c, d, e, f, g, h] with
    | some char => multiBasic? false (char :: done) rest
    | none => none
  | '\\' :: c :: rest =>
    match escape? c with
    | some char => multiBasic? false (char :: done) rest
    | none =>
      if (newline? (skipBlanks (c :: rest))).isSome then multiBasic? true done
        (c :: rest)
      else none
  | '\r' :: '\n' :: rest =>
    multiBasic? skipping (if skipping then done else '\n' :: done) rest
  | '\n' :: rest => multiBasic? skipping (if skipping then done else '\n' :: done) rest
  | c :: rest =>
    if skipping && (c = ' ' || c = '\t') then multiBasic? true done rest
    else if isPlain c then multiBasic? false (c :: done) rest
    else none

/-- Takes a string of several lines up to its three closing apostrophes. -/
def multiLiteral? (done : List Char) : List Char → Option (String × List Char)
  | [] => none
  | '\'' :: '\'' :: '\'' :: '\'' :: '\'' :: rest =>
    some (collected ('\'' :: '\'' :: done), rest)
  | '\'' :: '\'' :: '\'' :: '\'' :: rest => some (collected ('\'' :: done), rest)
  | '\'' :: '\'' :: '\'' :: rest => some (collected done, rest)
  | '\r' :: '\n' :: rest => multiLiteral? ('\n' :: done) rest
  | '\n' :: rest => multiLiteral? ('\n' :: done) rest
  | c :: rest => if isPlain c then multiLiteral? (c :: done) rest else none

/-- Leaves out a line end. -/
def skipNewline (text : List Char) : List Char :=
  (newline? text).getD text

/-- Takes a string that starts here. -/
def quoted? : List Char → Option (String × List Char)
  | '"' :: '"' :: '"' :: rest => multiBasic? false [] (skipNewline rest)
  | '"' :: rest => basic? [] rest
  | '\'' :: '\'' :: '\'' :: rest => multiLiteral? [] (skipNewline rest)
  | '\'' :: rest => literal? [] rest
  | _ => none

/-! ## Keys -/

/-- Whether a character can be part of a bare key. -/
def isKeyChar (c : Char) : Bool :=
  c.isAlphanum || c = '_' || c = '-'

/-- Takes one part of a key. -/
def keyPart? : List Char → Option (String × List Char)
  | '"' :: rest => basic? [] rest
  | '\'' :: rest => literal? [] rest
  | text =>
    match text.takeWhile isKeyChar with
    | [] => none
    | word => some (String.ofList word, text.dropWhile isKeyChar)

/-- Takes a key, whose parts stand between dots. -/
def key? : Nat → List Char → Option (List String × List Char)
  | 0, _ => none
  | fuel + 1, text => do
    let (part, rest) ← keyPart? text
    match skipBlanks rest with
    | '.' :: rest =>
      let (parts, rest) ← key? fuel (skipBlanks rest)
      return (part :: parts, rest)
    | rest => return ([part], rest)

end Treewalk.Toml
