import BorgCore.Lib.Transducer

/-!
# The lexical grammar of ECMAScript modules

What a module of TypeScript is made of before it means anything: names, strings, punctuators and comments.  The
lexer reads a character at a time.  Which characters of Unicode a name is made of, beyond ASCII, is given.

Regular expressions and templates are outside of this: they do not lex.  So are the hexadecimal and Unicode escapes of
strings and names.
-/

namespace BorgCore

namespace EcmaScript

def isLineTerminator (c : Char) : Bool := c = '\n' || c = '\r' || c = '\u2028' || c = '\u2029'

/-- The characters beyond ASCII that a name starts with and goes on with; none of them ends a line. -/
structure Unicode where
  idStart : Char → Bool
  idContinue : Char → Bool
  continues : ∀ c, idStart c = true → idContinue c = true
  unbroken : ∀ c, idContinue c = true → isLineTerminator c = false

/-- No character beyond ASCII. -/
def Unicode.ascii : Unicode := ⟨fun _ => false, fun _ => false, nofun, nofun⟩

def isAscii (c : Char) : Bool := c.val < 128

section Names

variable (unicode : Unicode)

def isIdStart (c : Char) : Bool :=
  if isAscii c then c.isAlpha || c = '$' || c = '_' else unicode.idStart c

def isIdContinue (c : Char) : Bool :=
  if isAscii c then c.isAlphanum || c = '$' || c = '_' else unicode.idContinue c

/-- A name, reserved or not. -/
def isIdentifierName : List Char → Bool
  | [] => false
  | first :: rest => isIdStart unicode first && rest.all (isIdContinue unicode)

end Names

def reserved : List (List Char) :=
  [['a', 'w', 'a', 'i', 't'], ['b', 'r', 'e', 'a', 'k'], ['c', 'a', 's', 'e'], ['c', 'a', 't', 'c', 'h'],
    ['c', 'l', 'a', 's', 's'], ['c', 'o', 'n', 's', 't'], ['c', 'o', 'n', 't', 'i', 'n', 'u', 'e'],
    ['d', 'e', 'b', 'u', 'g', 'g', 'e', 'r'], ['d', 'e', 'f', 'a', 'u', 'l', 't'], ['d', 'e', 'l', 'e', 't', 'e'],
    ['d', 'o'], ['e', 'l', 's', 'e'], ['e', 'n', 'u', 'm'], ['e', 'x', 'p', 'o', 'r', 't'],
    ['e', 'x', 't', 'e', 'n', 'd', 's'], ['f', 'a', 'l', 's', 'e'], ['f', 'i', 'n', 'a', 'l', 'l', 'y'],
    ['f', 'o', 'r'], ['f', 'u', 'n', 'c', 't', 'i', 'o', 'n'], ['i', 'f'],
    ['i', 'm', 'p', 'l', 'e', 'm', 'e', 'n', 't', 's'], ['i', 'm', 'p', 'o', 'r', 't'], ['i', 'n'],
    ['i', 'n', 's', 't', 'a', 'n', 'c', 'e', 'o', 'f'], ['i', 'n', 't', 'e', 'r', 'f', 'a', 'c', 'e'],
    ['l', 'e', 't'], ['n', 'e', 'w'], ['n', 'u', 'l', 'l'], ['p', 'a', 'c', 'k', 'a', 'g', 'e'],
    ['p', 'r', 'i', 'v', 'a', 't', 'e'], ['p', 'r', 'o', 't', 'e', 'c', 't', 'e', 'd'],
    ['p', 'u', 'b', 'l', 'i', 'c'], ['r', 'e', 't', 'u', 'r', 'n'], ['s', 't', 'a', 't', 'i', 'c'],
    ['s', 'u', 'p', 'e', 'r'], ['s', 'w', 'i', 't', 'c', 'h'], ['t', 'h', 'i', 's'], ['t', 'h', 'r', 'o', 'w'],
    ['t', 'r', 'u', 'e'], ['t', 'r', 'y'], ['t', 'y', 'p', 'e', 'o', 'f'], ['v', 'a', 'r'], ['v', 'o', 'i', 'd'],
    ['w', 'h', 'i', 'l', 'e'], ['w', 'i', 't', 'h'], ['y', 'i', 'e', 'l', 'd']]

example : reserved.map String.ofList =
    ["await", "break", "case", "catch", "class", "const", "continue", "debugger", "default", "delete", "do",
      "else", "enum", "export", "extends", "false", "finally", "for", "function", "if", "implements", "import",
      "in", "instanceof", "interface", "let", "new", "null", "package", "private", "protected", "public", "return",
      "static", "super", "switch", "this", "throw", "true", "try", "typeof", "var", "void", "while", "with",
      "yield"] := by decide

def isReserved (word : List Char) : Bool := reserved.contains word

inductive Token where
  | identifier (name : List Char)
  | keyword (word : List Char)
  /-- A string literal: what stands between its quotes, and what it says. -/
  | string (raw value : List Char)
  /-- A comment, without its marks. -/
  | line (text : List Char)
  | block (text : List Char)
  | number (text : List Char)
  | punctuator (text : List Char)
deriving DecidableEq

def wordToken (word : List Char) : Token := if isReserved word then .keyword word else .identifier word

/-! ### Strings -/

/-- The character a single character escapes to. -/
def escaped (c : Char) : Char :=
  if c = 'n' then '\n' else if c = 't' then '\t' else if c = 'r' then '\r' else if c = 'b' then '\u0008'
  else if c = 'f' then '\u000c' else if c = 'v' then '\u000b' else c

/-- What stands between the quotes of a string says, if it may stand there. -/
def unescape : List Char → Option (List Char)
  | [] => some []
  | '\\' :: c :: rest =>
    if isLineTerminator c then unescape rest
    else if c = 'x' || c = 'u' || c.isDigit then none
    else (unescape rest).map (escaped c :: ·)
  | c :: rest => if c = '\\' || c = '\n' || c = '\r' then none else (unescape rest).map (c :: ·)

/-- A text with its backslashes and double quotes escaped. -/
def escape (text : List Char) : List Char :=
  text.flatMap fun c => if c = '\\' || c = '"' then ['\\', c] else [c]

/-! ### The lexer -/

/-- Punctuators of more than one character; those that start with `>` are put together by the parser. -/
def punctuators : List (List Char) :=
  [['.', '.', '.'], ['<', '='], ['<', '<'], ['<', '<', '='], ['=', '='], ['=', '=', '='], ['=', '>'], ['!', '='],
    ['!', '=', '='], ['+', '+'], ['+', '='], ['-', '-'], ['-', '='], ['*', '*'], ['*', '='], ['*', '*', '='],
    ['%', '='], ['/', '='], ['&', '&'], ['&', '='], ['&', '&', '='], ['|', '|'], ['|', '='], ['|', '|', '='],
    ['^', '='], ['?', '.'], ['?', '?'], ['?', '?', '=']]

def grows (text : List Char) : Bool := punctuators.any fun punctuator => text.isPrefixOf punctuator

/-- Where a lexer is: between tokens, or inside of one. -/
inductive Mode where
  | code
  | word (text : List Char)
  | number (text : List Char)
  | punctuator (text : List Char)
  | line (text : List Char)
  | block (text : List Char)
  /-- A comment that may be about to end. -/
  | star (text : List Char)
  | string (quote : Char) (raw : List Char)
  | escape (quote : Char) (raw : List Char)
deriving DecidableEq

/-- The tokens of a punctuator that has ended; two points are two tokens. -/
def punctuatorTokens (text : List Char) : List Token :=
  if text = ['.', '.'] then [.punctuator ['.'], .punctuator ['.']] else [.punctuator text]

def isSpace (c : Char) : Bool :=
  c = ' ' || c = '\t' || c = '\u000b' || c = '\u000c' || c = '\u00a0' || c = '\ufeff' || c = '\u1680' ||
    ('\u2000' ≤ c && c ≤ '\u200a') || c = '\u202f' || c = '\u205f' || c = '\u3000'

/-- The characters a punctuator starts with. -/
def isPunctuator (c : Char) : Bool :=
  ['{', '}', '(', ')', '[', ']', '.', ';', ',', '<', '>', '=', '+', '-', '*', '%', '&', '|', '^', '!', '~',
    '?', ':', '@',
    '/'].contains c

section Lexer

variable (unicode : Unicode)

def start (c : Char) : Option Mode :=
  if isIdStart unicode c then some (.word [c])
  else if isLineTerminator c || isSpace c then some .code
  else if c = '"' || c = '\'' then some (.string c [])
  else if c.isDigit then some (.number [c])
  else if isPunctuator c then some (.punctuator [c])
  else none

def step : Transducer Mode Char Token := fun mode c =>
  let fresh (pending : List Token) := (start unicode c).map fun next => (next, pending)
  match mode with
  | .code => fresh []
  | .word text => if isIdContinue unicode c then some (.word (text ++ [c]), []) else fresh [wordToken text]
  | .number text =>
    if isIdContinue unicode c || c = '.' then some (.number (text ++ [c]), []) else fresh [.number text]
  | .punctuator text =>
    if text = ['/'] ∧ c = '/' then some (.line [], [])
    else if text = ['/'] ∧ c = '*' then some (.block [], [])
    else if grows (text ++ [c]) then some (.punctuator (text ++ [c]), [])
    else fresh (punctuatorTokens text)
  | .line text => if isLineTerminator c then some (.code, [.line text]) else some (.line (text ++ [c]), [])
  | .block text => if c = '*' then some (.star text, []) else some (.block (text ++ [c]), [])
  | .star text =>
    if c = '/' then some (.code, [.block text])
    else if c = '*' then some (.star (text ++ ['*']), [])
    else some (.block (text ++ ['*', c]), [])
  | .string quote raw =>
    if c = quote then (unescape raw).map fun value => (.code, [.string raw value])
    else if c = '\\' then some (.escape quote raw, [])
    else if c = '\n' || c = '\r' then none
    else some (.string quote (raw ++ [c]), [])
  | .escape quote raw => some (.string quote (raw ++ ['\\', c]), [])

def finish : Mode → Option (List Token)
  | .code => some []
  | .word text => some [wordToken text]
  | .number text => some [.number text]
  | .punctuator text => some (punctuatorTokens text)
  | .line text => some [.line text]
  | .block _ | .star _ | .string .. | .escape .. => none

/-- The tokens of a text, if it has any. -/
def lex (text : List Char) : Option (List Token) :=
  (Transducer.run (step unicode) .code text).bind fun (mode, tokens) => (finish mode).map (tokens ++ ·)

end Lexer

end EcmaScript

end BorgCore
