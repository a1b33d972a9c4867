import LiftedPlanning.Json.Basic

/-!
# Reading JSON

Reading has two passes. The lexer walks over the characters and cuts them into tokens; the reader
walks over the tokens with a stack of the containers that are still open (`Frame`) and a cursor
that says what may come next. Both are folds over their input, so reading always ends, and nesting
has no limit.

A record is an object with known fields, or an array that gives them by position (`Json.record?`).
-/

namespace LiftedPlanning.Json

/-! ## Tokens -/

inductive Token where
  | openArray
  | closeArray
  | openObject
  | closeObject
  | comma
  | colon
  | string (literal : String)
  | scalar (value : Json)

def isBlank (c : Char) : Bool := c = ' ' || c = '\n' || c = '\t' || c = '\r'

def punctuation? : Char → Option Token
  | '[' => some .openArray
  | ']' => some .closeArray
  | '\x7b' => some .openObject
  | '\x7d' => some .closeObject
  | ',' => some .comma
  | ':' => some .colon
  | _ => none

/-- At least one digit, and nothing else. -/
def isDigits (cs : List Char) : Bool := !cs.isEmpty && cs.all Char.isDigit

def isExponent : List Char → Bool
  | [] => true
  | e :: '+' :: ds => (e == 'e' || e == 'E') && isDigits ds
  | e :: '-' :: ds => (e == 'e' || e == 'E') && isDigits ds
  | e :: ds => (e == 'e' || e == 'E') && isDigits ds

def isFraction : List Char → Bool
  | '.' :: rest => isDigits (rest.takeWhile Char.isDigit) && isExponent (rest.dropWhile Char.isDigit)
  | rest => isExponent rest

/-- A numeral without its sign: no leading zero, then fraction and exponent. -/
def isUnsignedNumeral : List Char → Bool
  | '0' :: rest => isFraction rest
  | rest => isDigits (rest.takeWhile Char.isDigit) && isFraction (rest.dropWhile Char.isDigit)

def isNumeral : List Char → Bool
  | '-' :: rest => isUnsignedNumeral rest
  | rest => isUnsignedNumeral rest

def word? (cs : List Char) : Option Json :=
  if cs = ['t', 'r', 'u', 'e'] then some (.bool true)
  else if cs = ['f', 'a', 'l', 's', 'e'] then some (.bool false)
  else if cs = ['n', 'u', 'l', 'l'] then some .null
  else if isNumeral cs then some (.number (String.ofList cs))
  else none

/-- What the lexer is in the middle of; characters read are kept newest first. -/
inductive Lexing where
  | between
  | word (read : List Char)
  | string (read : List Char)
  | escape (read : List Char)

/-- What a character that is part of no word and no string starts. -/
def startToken (c : Char) : Option (Option Token × Lexing) :=
  if isBlank c then some (none, .between)
  else if c = '"' then some (none, .string [])
  else match punctuation? c with
    | some t => some (some t, .between)
    | none => some (none, .word [c])

def endsWord (c : Char) : Bool := isBlank c || c == '"' || (punctuation? c).isSome

/-- Cuts characters into tokens. Control characters may not stand in a string. -/
def lex : Lexing → List Char → Option (List Token)
  | .between, [] => some []
  | .word read, [] => (word? read.reverse).map fun j => [.scalar j]
  | .string _, [] => none
  | .escape _, [] => none
  | .between, c :: cs => do
    let (token, next) ← startToken c
    let rest ← lex next cs
    return token.toList ++ rest
  | .word read, c :: cs =>
    if endsWord c then do
      let word ← word? read.reverse
      let (token, next) ← startToken c
      let rest ← lex next cs
      return .scalar word :: (token.toList ++ rest)
    else lex (.word (c :: read)) cs
  | .string read, c :: cs =>
    if c = '"' then
      if isStringLiteral read.reverse then do
        let rest ← lex .between cs
        return .string (String.ofList read.reverse) :: rest
      else none
    else if c = '\\' then lex (.escape (c :: read)) cs
    else if c.toNat < 32 then none
    else lex (.string (c :: read)) cs
  | .escape read, c :: cs => if c.toNat < 32 then none else lex (.string (c :: read)) cs

/-! ## Values -/

/-- A container that is still open, with what it holds so far, newest first. -/
inductive Frame where
  | items (done : List Json)
  | fields (done : List (String × Json)) (key : String)

inductive Cursor where
  | value (stack : List Frame)
  | firstItem (stack : List Frame)
  | firstKey (stack : List Frame)
  | key (done : List (String × Json)) (stack : List Frame)
  | colon (done : List (String × Json)) (key : String) (stack : List Frame)
  | after (value : Json) (stack : List Frame)

def Cursor.start (stack : List Frame) : Token → Option Cursor
  | .openArray => some (.firstItem stack)
  | .openObject => some (.firstKey stack)
  | .string s => some (.after (.string s) stack)
  | .scalar j => some (.after j stack)
  | _ => none

def Cursor.step : Cursor → Token → Option Cursor
  | .value stack, t => start stack t
  | .firstItem stack, .closeArray => some (.after (.array []) stack)
  | .firstItem stack, t => start (.items [] :: stack) t
  | .firstKey stack, .closeObject => some (.after (.object []) stack)
  | .firstKey stack, .string k => some (.colon [] k stack)
  | .firstKey _, _ => none
  | .key done stack, .string k => some (.colon done k stack)
  | .key _ _, _ => none
  | .colon done k stack, .colon => some (.value (.fields done k :: stack))
  | .colon _ _ _, _ => none
  | .after j (.items done :: stack), .comma => some (.value (.items (j :: done) :: stack))
  | .after j (.items done :: stack), .closeArray =>
    some (.after (.array (j :: done).reverse) stack)
  | .after j (.fields done k :: stack), .comma => some (.key ((k, j) :: done) stack)
  | .after j (.fields done k :: stack), .closeObject =>
    some (.after (.object ((k, j) :: done).reverse) stack)
  | .after _ _, _ => none

def ofTokens? (ts : List Token) : Option Json :=
  match ts.foldlM Cursor.step (.value []) with
  | some (.after j []) => some j
  | _ => none

/-- Reads a JSON text, which holds one value and blanks around it. -/
def parse? (text : String) : Option Json := lex .between text.toList >>= ofTokens?

/-! ## Records -/

/-- The values given for a field name. Fails if a key of the object denotes no text. -/
def fieldValues? (fields : List (String × Json)) (name : String) : Option (List Json) :=
  match fields with
  | [] => some []
  | (k, j) :: rest => do
    let key ← textOf? k
    let found ← fieldValues? rest name
    return if key = name then j :: found else found

/-- The value of a field, if it is there; fails if it is given twice. -/
def field? (fields : List (String × Json)) (name : String) : Option (Option Json) := do
  match ← fieldValues? fields name with
  | [] => return none
  | [j] => return some j
  | _ => none

/-- The values of the named fields, missing ones as `none`. Fails on a field given twice, on a
surplus array item, and on a value that is no record. Other fields of an object do not matter. -/
def record? (names : List String) : Json → Option (List (Option Json))
  | .object fields => names.mapM (field? fields)
  | .array items =>
    if items.length ≤ names.length then some ((List.range names.length).map fun i => items[i]?)
    else none
  | _ => none

end LiftedPlanning.Json
