/-!
# String literals

What stands between the quotes of a JSON string. `escape` writes a text as a literal and
`unescape?` reads a literal back. A literal is well formed (`isStringLiteral`) when every
backslash starts an escape; a well-formed literal may still denote no text, because an escape may
name one half of a surrogate pair alone. Every text has a literal that denotes it
(`unescape?_escape`).
-/

namespace LiftedPlanning.Json

def hexDigit (n : Nat) : Char :=
  if n < 10 then Char.ofNat (48 + n) else Char.ofNat (87 + n)

def hexValue? (c : Char) : Option Nat :=
  if '0' ≤ c ∧ c ≤ '9' then some (c.toNat - 48)
  else if 'a' ≤ c ∧ c ≤ 'f' then some (c.toNat - 87)
  else if 'A' ≤ c ∧ c ≤ 'F' then some (c.toNat - 55)
  else none

/-- Quotes, backslashes and control characters are escaped; all else stands for itself. -/
def escapeChar (c : Char) : List Char :=
  if c = '"' then ['\\', '"']
  else if c = '\\' then ['\\', '\\']
  else if c = '\n' then ['\\', 'n']
  else if c = '\r' then ['\\', 'r']
  else if c = '\t' then ['\\', 't']
  else if c = '\x08' then ['\\', 'b']
  else if c = '\x0c' then ['\\', 'f']
  else if c.toNat < 32 then ['\\', 'u', '0', '0', hexDigit (c.toNat / 16), hexDigit (c.toNat % 16)]
  else [c]

def escape (cs : List Char) : List Char := cs.flatMap escapeChar

def simpleEscape? (c : Char) : Option Char :=
  if c = '"' then some '"'
  else if c = '\\' then some '\\'
  else if c = '/' then some '/'
  else if c = 'b' then some '\x08'
  else if c = 'f' then some '\x0c'
  else if c = 'n' then some '\n'
  else if c = 'r' then some '\r'
  else if c = 't' then some '\t'
  else none

def hexUnit? (a b c d : Char) : Option Nat := do
  let a ← hexValue? a
  let b ← hexValue? b
  let c ← hexValue? c
  let d ← hexValue? d
  return ((a * 16 + b) * 16 + c) * 16 + d

/-- Whether every backslash starts an escape. -/
def isStringLiteral : List Char → Bool
  | [] => true
  | '\\' :: 'u' :: a :: b :: c :: d :: rest => (hexUnit? a b c d).isSome && isStringLiteral rest
  | '\\' :: c :: rest => (simpleEscape? c).isSome && isStringLiteral rest
  | c :: rest => c != '\\' && isStringLiteral rest

def isHighSurrogate (u : Nat) : Bool := 0xD800 ≤ u && u < 0xDC00

def isLowSurrogate (u : Nat) : Bool := 0xDC00 ≤ u && u < 0xE000

def pairedChar (high low : Nat) : Char :=
  Char.ofNat (0x10000 + (high - 0xD800) * 0x400 + (low - 0xDC00))

/-- The text that a literal denotes. `pending` is the first half of a surrogate pair whose second
half is due; a half without its partner denotes nothing. -/
def unescapeFrom? (pending : Option Nat) : List Char → Option (List Char)
  | [] => if pending.isSome then none else some []
  | '\\' :: 'u' :: a :: b :: c :: d :: rest =>
    match hexUnit? a b c d, pending with
    | none, _ => none
    | some u, some high =>
      if isLowSurrogate u then (unescapeFrom? none rest).map (pairedChar high u :: ·) else none
    | some u, none =>
      if isHighSurrogate u then unescapeFrom? (some u) rest
      else if isLowSurrogate u then none
      else (unescapeFrom? none rest).map (Char.ofNat u :: ·)
  | '\\' :: c :: rest =>
    match pending, simpleEscape? c with
    | none, some c => (unescapeFrom? none rest).map (c :: ·)
    | _, _ => none
  | c :: rest =>
    if pending.isSome || c == '\\' then none else (unescapeFrom? none rest).map (c :: ·)

def unescape? (literal : List Char) : Option (List Char) := unescapeFrom? none literal

/-! ## Reading back what was written -/

theorem hexValue?_hexDigit : ∀ n < 16, hexValue? (hexDigit n) = some n := by decide

/-- Four digits of which the first two are zeros write a number below 256. -/
theorem hexUnit?_hexDigit {n : Nat} (h : n < 256) :
    hexUnit? '0' '0' (hexDigit (n / 16)) (hexDigit (n % 16)) = some n := by
  have h₀ : hexValue? '0' = some 0 := rfl
  simp only [hexUnit?, h₀, hexValue?_hexDigit _ (show n / 16 < 16 by omega),
    hexValue?_hexDigit _ (show n % 16 < 16 by omega), bind, Option.bind, pure]
  congr 1
  omega

theorem unescapeFrom?_escapeChar (c : Char) (rest : List Char) :
    unescapeFrom? none (escapeChar c ++ rest) = (unescapeFrom? none rest).map (c :: ·) := by
  unfold escapeChar
  split
  · next h => subst h; rfl
  split
  · next h => subst h; rfl
  split
  · next h => subst h; rfl
  split
  · next h => subst h; rfl
  split
  · next h => subst h; rfl
  split
  · next h => subst h; rfl
  split
  · next h => subst h; rfl
  split
  · next h =>
    have hhigh : isHighSurrogate c.toNat = false := by simp [isHighSurrogate]; omega
    have hlow : isLowSurrogate c.toNat = false := by simp [isLowSurrogate]; omega
    simp [unescapeFrom?, hexUnit?_hexDigit (Nat.lt_trans h (by decide)), hhigh, hlow]
  · next _ hc _ _ _ _ _ _ =>
    have hc' : (c == '\\') = false := beq_false_of_ne hc
    rw [List.singleton_append, unescapeFrom?]
    · simp [hc']
    · intro _ _ _ _ _ h
      exact absurd h hc
    · intro _ _ h
      exact absurd h hc

@[simp] theorem unescape?_escape (cs : List Char) : unescape? (escape cs) = some cs := by
  unfold unescape? escape
  induction cs with
  | nil => rfl
  | cons c cs ih =>
    rw [List.flatMap_cons, unescapeFrom?_escapeChar, ih]
    rfl

end LiftedPlanning.Json
