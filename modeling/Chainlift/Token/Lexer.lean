import Chainlift.Token.Basic
import Chainlift.Text.Names

/-!
# Reading tokens

`Lexeme.next` reads one token from a text: first the blank space and comments before it (`Blank.scan`), then the token by
its first character. Every reader takes a list of characters and gives back what follows, so a token is never longer than
the text it is read from.

A comment belongs to the token after it unless it trails the one before: it is on that token's line, and is either a line
comment or followed by a line break. After `=` and `(` a line comment does not trail.
-/

namespace Chainlift

open Text

/-- What was read, and the text after it. -/
abbrev Scanned (α : Type) := α × List Char

namespace Lexer

/-! ## Blank space and comments -/

/-- What has been seen since the last token. -/
structure Blank where
  /-- Comments that may still turn out to trail the last token. -/
  pending : List Comment
  newline : Bool
  /-- A line break, or the start of the text, stands before this point. -/
  lineStart : Bool
  /-- The last token is one after which a line comment does not trail. -/
  opened : Bool

namespace Blank

def lineBreak (b : Blank) : Blank :=
  let marked := match b.pending.reverse with
    | [] => []
    | c :: cs => ({ c with lineAfter := true } :: cs).reverse
  { b with pending := if b.lineStart then marked else [], newline := true, lineStart := true }

def lineComment (b : Blank) (text : List Char) : Blank :=
  let c : Comment := ⟨String.ofList text, true, b.lineStart, true⟩
  { b with pending := if b.lineStart || b.opened then b.pending ++ [c] else [], lineStart := true }

def blockComment (b : Blank) (text : List Char) : Blank :=
  let c : Comment := ⟨String.ofList text, false, b.lineStart, false⟩
  { b with pending := b.pending ++ [c], newline := b.newline || text.any isLineBreak }

/-- Where the scan stands: between tokens, or inside a comment whose characters so far are held in reverse. -/
inductive Mode where
  | between
  | line (seen : List Char)
  | block (seen : List Char)

/-- Read blank space and comments. -/
def scan (b : Blank) : Mode → List Char → Except SyntaxError (Scanned Blank)
  | .between, [] => .ok (b, [])
  | .line seen, [] => .ok (b.lineComment seen.reverse, [])
  | .block _, [] => .error (.unterminated "comment")
  | .between, '/' :: '/' :: cs => scan b (.line ['/', '/']) cs
  | .between, '/' :: '*' :: cs => scan b (.block ['*', '/']) cs
  | .between, c :: cs =>
    if isLineBreak c then scan b.lineBreak .between cs
    else if isBlank c then scan b .between cs
    else .ok (b, c :: cs)
  | .line seen, c :: cs =>
    if isLineBreak c then scan (b.lineComment seen.reverse).lineBreak .between cs else scan b (.line (c :: seen)) cs
  | .block seen, '*' :: '/' :: cs => scan (b.blockComment ('/' :: '*' :: seen).reverse) .between cs
  | .block seen, c :: cs => scan b (.block (c :: seen)) cs

end Blank

/-! ## Digits and escapes -/

def digitValue (c : Char) : Nat :=
  if c.isDigit then c.toNat - 48
  else if 'a' ≤ c && c ≤ 'f' then c.toNat - 87
  else if 'A' ≤ c && c ≤ 'F' then c.toNat - 55
  else 99

def isDigitIn (base : Nat) (c : Char) : Bool := digitValue c < base

def ofDigits (base : Nat) (ds : List Char) : Nat := ds.foldl (fun n c => n * base + digitValue c) 0

/-- Two underscores in a row. -/
def doubled : List Char → Bool
  | '_' :: '_' :: _ => true
  | _ :: cs => doubled cs
  | [] => false

/-- The digits of a run in which underscores may stand between two digits. -/
def digitRun (base : Nat) (cs : List Char) : Except SyntaxError (Scanned (List Char)) :=
  let run := cs.takeWhile fun c => isDigitIn base c || c == '_'
  let rest := cs.dropWhile fun c => isDigitIn base c || c == '_'
  if run.head? == some '_' || run.getLast? == some '_' || doubled run then .error .invalidNumber
  else .ok (run.filter (· != '_'), rest)

def isHigh (n : Nat) : Bool := 0xD800 ≤ n && n ≤ 0xDBFF
def isLow (n : Nat) : Bool := 0xDC00 ≤ n && n ≤ 0xDFFF

/-- Four hexadecimal digits. -/
def hexQuad : List Char → Option (Nat × List Char)
  | a :: b :: c :: d :: cs => if [a, b, c, d].all (isDigitIn 16) then some (ofDigits 16 [a, b, c, d], cs) else none
  | _ => none

/-- The code point of a `\u` escape, whose text after the `u` is given. Two escapes that form a surrogate pair are one. -/
def unicodeEscape (cs : List Char) : Option (Nat × List Char) :=
  match cs with
  | '\x7b' :: cs =>
    let ds := cs.takeWhile (isDigitIn 16)
    match cs.dropWhile (isDigitIn 16) with
    | '\x7d' :: rest => if ds.isEmpty || 0x10FFFF < ofDigits 16 ds then none else some (ofDigits 16 ds, rest)
    | _ => none
  | _ => do
    let (hi, rest) ← hexQuad cs
    if isHigh hi then
      match rest with
      | '\\' :: 'u' :: more =>
        match hexQuad more with
        | some (lo, rest') =>
          if isLow lo then some (0x10000 + (hi - 0xD800) * 0x400 + (lo - 0xDC00), rest') else some (hi, rest)
        | none => some (hi, rest)
      | _ => some (hi, rest)
    else some (hi, rest)

/-- The value of an escape in a string, whose text after the backslash is given: a continued line has none. -/
def escapeValue : List Char → Option (Points × List Char)
  | [] => none
  | 'n' :: cs => some ([10], cs)
  | 't' :: cs => some ([9], cs)
  | 'r' :: cs => some ([13], cs)
  | 'b' :: cs => some ([8], cs)
  | 'v' :: cs => some ([11], cs)
  | 'f' :: cs => some ([12], cs)
  | '\r' :: '\n' :: cs => some ([], cs)
  | 'x' :: a :: b :: cs => if isDigitIn 16 a && isDigitIn 16 b then some ([ofDigits 16 [a, b]], cs) else none
  | 'x' :: _ => none
  | 'u' :: cs => (unicodeEscape cs).map fun (n, rest) => ([n], rest)
  | c :: cs =>
    if isLineBreak c then some ([], cs)
    else if isDigitIn 8 c then
      let limit := if c ≤ '3' then 2 else 1
      let more := (cs.take limit).takeWhile (isDigitIn 8)
      some ([ofDigits 8 (c :: more)], cs.drop more.length)
    else some ([c.toNat], cs)

/-! ## Names -/

/-- The characters of a name, with its escapes resolved, and whether there were any. -/
def nameChars (cs : List Char) : Except SyntaxError (Scanned (List Char × Bool)) :=
  match cs with
  | '\\' :: 'u' :: more =>
    match unicodeEscape more with
    | some (n, rest) =>
      if isNamePart (Char.ofNat n) then
        if _h : rest.length ≤ more.length then do
          let ((name, _), rest) ← nameChars rest
          .ok ((Char.ofNat n :: name, true), rest)
        else .error .invalidEscape
      else .error .invalidEscape
    | none => .error .invalidEscape
  | '\\' :: _ => .error .invalidEscape
  | c :: more =>
    if isNamePart c then do
      let ((name, escaped), rest) ← nameChars more
      .ok ((c :: name, escaped), rest)
    else .ok (([], false), cs)
  | [] => .ok (([], false), [])
termination_by cs.length

def beginsName : List Char → Bool
  | '\\' :: _ => true
  | c :: _ => isNameStart c
  | [] => false

/-- A name, which does not begin with a digit. -/
def readName (cs : List Char) : Except SyntaxError (Scanned (String × Bool)) := do
  let ((chars, escaped), rest) ← nameChars cs
  match chars with
  | c :: _ => if isNameStart c then .ok ((String.ofList chars, escaped), rest) else .error (.invalidCharacter c)
  | [] => .error (.unexpected "#")

/-! ## Numbers -/

/-- A number is not followed by a digit or by the start of a name. -/
def endNumber (token : Token) (cs : List Char) : Except SyntaxError (Scanned Token) :=
  match cs with
  | c :: _ => if isNameStart c || c.isDigit || c == '\\' then .error .invalidNumber else .ok (token, cs)
  | [] => .ok (token, [])

/-- Digits after a base mark. -/
def basedNumber (base : Nat) (cs : List Char) : Except SyntaxError (Scanned Token) := do
  let (ds, rest) ← digitRun base cs
  if ds.isEmpty then .error .invalidNumber
  else
    let n := ofDigits base ds
    match rest with
    | 'n' :: rest => endNumber (.bigint n) rest
    | _ => endNumber (.number (.ofNat n)) rest

/-- The exponent after the digits of a decimal number. -/
def exponent (cs : List Char) : Except SyntaxError (Scanned Int) :=
  match cs with
  | e :: rest =>
    if e == 'e' || e == 'E' then
      let (negative, rest) := match rest with
        | '-' :: rest => (true, rest)
        | '+' :: rest => (false, rest)
        | _ => (false, rest)
      do
        let (ds, rest) ← digitRun 10 rest
        if ds.isEmpty then .error .invalidNumber
        else .ok (if negative then -(ofDigits 10 ds : Int) else ofDigits 10 ds, rest)
    else .ok (0, cs)
  | [] => .ok (0, [])

/-- Point, fraction and exponent, after the digits before the point. -/
def fractionNumber (whole cs : List Char) : Except SyntaxError (Scanned Token) := do
  let (fraction, rest) ← match cs with
    | '.' :: rest => digitRun 10 rest
    | _ => .ok ([], cs)
  let (e, rest) ← exponent rest
  endNumber (.number (.ofDecimal (ofDigits 10 (whole ++ fraction)) (e - fraction.length))) rest

/-- A number that begins with a digit. A leading zero before octal digits means base eight. -/
def numberToken (cs : List Char) : Except SyntaxError (Scanned Token) :=
  match cs with
  | '0' :: c :: rest =>
    if c == 'x' || c == 'X' then basedNumber 16 rest
    else if c == 'o' || c == 'O' then basedNumber 8 rest
    else if c == 'b' || c == 'B' then basedNumber 2 rest
    else if c.isDigit then
      let ds := (c :: rest).takeWhile Char.isDigit
      let rest := (c :: rest).dropWhile Char.isDigit
      if ds.all (isDigitIn 8) then endNumber (.number (.ofNat (ofDigits 8 ds))) rest
      else fractionNumber ds rest
    else if c == '_' then .error .invalidNumber
    else decimal cs
  | _ => decimal cs
where
  decimal (cs : List Char) : Except SyntaxError (Scanned Token) := do
    let (ds, rest) ← digitRun 10 cs
    match rest with
    | 'n' :: rest => endNumber (.bigint (ofDigits 10 ds)) rest
    | _ => fractionNumber ds rest

/-! ## Strings, templates, regular expressions -/

/-- The value of a string up to its closing quote. -/
def stringValue (quote : Char) (cs : List Char) : Except SyntaxError (Scanned Points) :=
  match cs with
  | [] => .error (.unterminated "string")
  | '\\' :: more =>
    match escapeValue more with
    | some (ps, rest) =>
      if _h : rest.length ≤ more.length then do
        let (value, rest) ← stringValue quote rest
        .ok (ps ++ value, rest)
      else .error .invalidEscape
    | none => .error .invalidEscape
  | c :: more =>
    if c == quote then .ok ([], more)
    else if c == '\n' || c == '\r' then .error (.unterminated "string")
    else do
      let (value, rest) ← stringValue quote more
      .ok (c.toNat :: value, rest)
termination_by cs.length

/-- A chunk of a template: its raw text, in which every line break is a line feed, whether it is the last chunk, and
whether its escapes have values. -/
def templateChunk (cs : List Char) : Except SyntaxError (Scanned (List Char × Bool × Bool)) :=
  match cs with
  | [] => .error (.unterminated "template")
  | '\x60' :: rest => .ok (([], true, true), rest)
  | '$' :: '\x7b' :: rest => .ok (([], false, true), rest)
  | '\\' :: '\r' :: '\n' :: rest => add ['\\', '\n'] true (templateChunk rest)
  | '\\' :: '\r' :: rest => add ['\\', '\n'] true (templateChunk rest)
  | '\\' :: c :: rest => add ['\\', c] (isValid (c :: rest)) (templateChunk rest)
  | '\r' :: '\n' :: rest => add ['\n'] true (templateChunk rest)
  | '\r' :: rest => add ['\n'] true (templateChunk rest)
  | c :: rest => add [c] true (templateChunk rest)
where
  add (text : List Char) (valid : Bool) (r : Except SyntaxError (Scanned (List Char × Bool × Bool))) :
      Except SyntaxError (Scanned (List Char × Bool × Bool)) :=
    r.map fun ((raw, last, ok), rest) => ((text ++ raw, last, ok && valid), rest)
  /-- In a template only `\0` is a digit escape. -/
  isValid (cs : List Char) : Bool :=
    match cs with
    | '0' :: c :: _ => !c.isDigit
    | c :: _ => if c.isDigit && c != '0' then false else (escapeValue cs).isSome
    | [] => false

def templateToken (cs : List Char) : Except SyntaxError (Scanned Token) :=
  (templateChunk cs).map fun ((raw, last, valid), rest) => (.template (String.ofList raw) last valid, rest)

/-- The pattern of a regular expression up to its closing slash, which does not count inside brackets. -/
def regexpPattern (inClass : Bool) : List Char → Except SyntaxError (Scanned (List Char))
  | [] => .error (.unterminated "regular expression")
  | '\\' :: c :: rest =>
    if isLineBreak c then .error (.unterminated "regular expression")
    else (regexpPattern inClass rest).map fun (p, rest) => ('\\' :: c :: p, rest)
  | '/' :: rest => if inClass then (regexpPattern inClass rest).map fun (p, rest) => ('/' :: p, rest) else .ok ([], rest)
  | c :: rest =>
    if isLineBreak c then .error (.unterminated "regular expression")
    else
      let inClass := if c == '[' then true else if c == ']' then false else inClass
      (regexpPattern inClass rest).map fun (p, rest) => (c :: p, rest)

/-- A regular expression, whose text after the first slash is given. The flags are distinct letters. -/
def regexpToken (cs : List Char) : Except SyntaxError (Scanned Token) := do
  let (pattern, rest) ← regexpPattern false cs
  let flags := rest.takeWhile isNamePart
  if flags.all (fun c => "dgimsuvy".toList.contains c) && flags.eraseDups.length == flags.length then
    .ok (.regexp (String.ofList pattern) (String.ofList flags), rest.dropWhile isNamePart)
  else .error (.unexpected (String.ofList flags))

/-! ## Punctuation and the token itself -/

/-- The operators and brackets, longer ones first. -/
def punctuators : List (List Char) :=
  [">>>=", "...", "===", "!==", "**=", "<<=", ">>=", ">>>", "&&=", "||=", "??=",
   "=>", "==", "!=", "<=", ">=", "++", "--", "<<", ">>", "&&", "||", "??", "?.", "+=", "-=", "*=", "/=", "%=", "&=", "|=",
   "^=", "**", "\x7b", "\x7d", "(", ")", "[", "]", ".", ";", ",", "<", ">", "+", "-", "*", "/", "%", "&", "|", "^", "!",
   "~", "?", ":", "=", "@"].map String.toList

/-- The longest operator at the start of the text. A question mark and a point before a digit are two tokens. -/
def punctToken (cs : List Char) : Except SyntaxError (Scanned Token) :=
  let fits (p : List Char) : Bool :=
    p.isPrefixOf cs && !(p == ['?', '.'] && ((cs.drop 2).head?.map Char.isDigit).getD false)
  match punctuators.find? fits, cs with
  | some p, _ => .ok (.punct (String.ofList p), cs.drop p.length)
  | none, c :: _ => .error (.invalidCharacter c)
  | none, [] => .ok (.finish, [])

def quoted (quote : Char) (cs : List Char) : Except SyntaxError (Scanned Token) := do
  let (value, rest) ← stringValue quote cs
  .ok (.string value (String.ofList (cs.take (cs.length - rest.length - 1))), rest)

/-- The token at the start of a text that does not begin with blank space. -/
def readToken (cs : List Char) : Except SyntaxError (Scanned Token) :=
  match cs with
  | [] => .ok (.finish, [])
  | '"' :: rest => quoted '"' rest
  | '\x27' :: rest => quoted '\x27' rest
  | '\x60' :: rest => templateToken rest
  | '#' :: rest => (readName rest).map fun ((n, _), rest) => (.privateName n, rest)
  | '.' :: d :: _ => if d.isDigit then fractionNumber [] cs else punctToken cs
  | c :: _ =>
    if c.isDigit then numberToken cs
    else if beginsName cs then (readName cs).map fun ((n, escaped), rest) => (.word n escaped, rest)
    else punctToken cs

end Lexer

namespace Lexeme

/-- The next token of a text; `opened` says that the token before it is `=` or `(`, `first` that there is none. -/
def next (first opened : Bool) (cs : List Char) : Except SyntaxError Lexeme := do
  let (b, start) ← Lexer.Blank.scan ⟨[], false, first, opened⟩ .between cs
  let (t, rest) ← Lexer.readToken start
  .ok ⟨t, b.newline, b.pending, start, rest⟩

/-- The token after this one. -/
def after (l : Lexeme) : Except SyntaxError Lexeme :=
  next false (l.token == .punct "=" || l.token == .punct "(") l.rest

end Lexeme

end Chainlift
