set_option autoImplicit false

/-! # JSON documents

`Document.parse?` reads a JSON text in two passes over lists: characters to tokens, tokens to a
document. Both passes are automata that take one symbol at a time, so nesting is unlimited.

Strings keep whether they can be read: an escape may spell half of a surrogate pair, which is
well-formed JSON and yet no text. Of numbers only natural ones written without fraction or
exponent keep their value. -/

namespace SparseScan

/-- A JSON document. A string is `none` when an escape in it stands for no character. -/
inductive Document where
  | null
  | bool (b : Bool)
  | natural (n : Nat)
  | number
  | string (s : Option String)
  | array (items : List Document)
  | object (members : List (Option String × Document))

namespace Document

/-! ## Tokens -/

/-- What the text of a document is made of. -/
inductive Token where
  | openArray
  | closeArray
  | openObject
  | closeObject
  | comma
  | colon
  | null
  | bool (b : Bool)
  | natural (n : Nat)
  | number
  | string (s : Option String)
deriving DecidableEq, Repr

/-- An escape under way in a string. -/
inductive Escape where
  | absent
  | opened
  | hex (owed code : Nat)
deriving DecidableEq, Repr

/-- A string under way: its characters, last first, whether all of it can be read, and a leading
    surrogate that awaits its trailing half. -/
structure StringState where
  chars : List Char := []
  readable : Bool := true
  leading : Option Nat := none
  escape : Escape := .absent
deriving DecidableEq, Repr

namespace StringState

/-- The string after a character; a leading surrogate before it stays alone. -/
def push (s : StringState) (c : Char) : StringState :=
  { chars := c :: s.chars, readable := s.readable && s.leading.isNone }

/-- The string after an escaped UTF-16 unit. -/
def pushUnit (s : StringState) (code : Nat) : StringState :=
  let leads := 0xD800 ≤ code && code < 0xDC00
  let trails := 0xDC00 ≤ code && code < 0xE000
  match s.leading with
  | some lead =>
      if trails then
        { chars := Char.ofNat (0x10000 + (lead - 0xD800) * 0x400 + (code - 0xDC00)) :: s.chars,
          readable := s.readable }
      else { chars := s.chars, readable := false }
  | none =>
      if leads then { chars := s.chars, readable := s.readable, leading := some code }
      else if trails then { chars := s.chars, readable := false }
      else { chars := Char.ofNat code :: s.chars, readable := s.readable }

/-- The text of a complete string. -/
def text? (s : StringState) : Option String :=
  if s.readable && s.leading.isNone then some (String.ofList s.chars.reverse) else none

/-- The character that a one-letter escape stands for. -/
def escaped? : Char → Option Char
  | '"' => some '"'
  | '\\' => some '\\'
  | '/' => some '/'
  | 'b' => some '\x08'
  | 'f' => some '\x0c'
  | 'n' => some '\n'
  | 'r' => some '\r'
  | 't' => some '\t'
  | _ => none

/-- The value of a hexadecimal digit. -/
def hexDigit? (c : Char) : Option Nat :=
  if '0' ≤ c && c ≤ '9' then some (c.toNat - 48)
  else if 'a' ≤ c && c ≤ 'f' then some (c.toNat - 87)
  else if 'A' ≤ c && c ≤ 'F' then some (c.toNat - 55)
  else none

/-- The string after character `c` of the text, which does not end it. Control characters must be
    escaped. -/
def next? (s : StringState) (c : Char) : Option StringState :=
  match s.escape with
  | .absent =>
      if c = '\\' then some { s with escape := .opened }
      else if c.toNat < 0x20 then none
      else some (s.push c)
  | .opened =>
      if c = 'u' then some { s with escape := .hex 4 0 }
      else (escaped? c).map s.push
  | .hex owed code =>
      (hexDigit? c).map fun d =>
        if owed ≤ 1 then s.pushUnit (16 * code + d)
        else { s with escape := .hex (owed - 1) (16 * code + d) }

end StringState

/-! ## Words -/

/-- The digits at the start of `cs`, and what follows them. -/
def digits (cs : List Char) : List Char × List Char :=
  (cs.takeWhile Char.isDigit, cs.dropWhile Char.isDigit)

/-- The natural number with the given decimal digits. -/
def ofDigits (cs : List Char) : Nat := cs.foldl (fun n c => 10 * n + (c.toNat - 48)) 0

/-- Whether `cs` is the end of a number: an optional fraction and an optional exponent. -/
def endsNumber (cs : List Char) : Bool :=
  let afterFraction : Option (List Char) :=
    match cs with
    | '.' :: rest =>
        let (places, rest) := digits rest
        if places.isEmpty then none else some rest
    | _ => some cs
  match afterFraction with
  | none => false
  | some [] => true
  | some (c :: rest) =>
      let unsigned := match rest with
        | '+' :: r => r
        | '-' :: r => r
        | r => r
      (c == 'e' || c == 'E') && !unsigned.isEmpty && unsigned.all Char.isDigit

/-- The token of a run of characters outside strings: a literal or a number. A number has no
    needless leading zero. -/
def word? (cs : List Char) : Option Token :=
  if cs = "null".toList then some .null
  else if cs = "true".toList then some (.bool true)
  else if cs = "false".toList then some (.bool false)
  else
    let (negative, unsigned) := match cs with
      | '-' :: rest => (true, rest)
      | _ => (false, cs)
    let (whole, rest) := digits unsigned
    let plain := !whole.isEmpty && (whole.head? != some '0' || whole.length == 1)
    if plain && endsNumber rest then
      if negative || !rest.isEmpty then some .number else some (.natural (ofDigits whole))
    else none

/-! ## Characters to tokens -/

/-- The piece of text under way. -/
inductive Piece where
  | blank
  | word (chars : List Char)
  | string (s : StringState)
deriving DecidableEq, Repr

/-- The tokens read so far, last first, and the piece of text under way. -/
structure Lexing where
  tokens : List Token := []
  piece : Piece := .blank
deriving DecidableEq, Repr

namespace Lexing

/-- The token of a structural character. -/
def structural? : Char → Option Token
  | '[' => some .openArray
  | ']' => some .closeArray
  | '{' => some .openObject
  | '}' => some .closeObject
  | ',' => some .comma
  | ':' => some .colon
  | _ => none

/-- The tokens after the piece under way has ended. -/
def ended? (l : Lexing) : Option (List Token) :=
  match l.piece with
  | .blank => some l.tokens
  | .word chars => (word? chars.reverse).map (· :: l.tokens)
  | .string _ => none

/-- Take one character of the text into account. -/
def next? (l : Lexing) (c : Char) : Option Lexing :=
  match l.piece with
  | .string s =>
      if c = '"' ∧ s.escape = .absent then some ⟨.string s.text? :: l.tokens, .blank⟩
      else (s.next? c).map fun s => ⟨l.tokens, .string s⟩
  | _ =>
      if c = ' ' ∨ c = '\t' ∨ c = '\n' ∨ c = '\r' then l.ended?.map fun ts => ⟨ts, .blank⟩
      else if c = '"' then l.ended?.map fun ts => ⟨ts, .string {}⟩
      else
        match structural? c with
        | some t => l.ended?.map fun ts => ⟨t :: ts, .blank⟩
        | none =>
            match l.piece with
            | .word chars => some { l with piece := .word (c :: chars) }
            | _ => some { l with piece := .word [c] }

end Lexing

/-- The tokens of a text. -/
def tokens? (text : String) : Option (List Token) := do
  let l ← text.toList.foldlM Lexing.next? {}
  let ts ← l.ended?
  return ts.reverse

/-! ## Tokens to documents -/

/-- A container under way, its contents last first; `member` is an object that has read a key. -/
inductive Frame where
  | array (items : List Document)
  | object (members : List (Option String × Document))
  | member (members : List (Option String × Document)) (key : Option String)

/-- What the next token may be. -/
inductive Expected where
  | value
  | firstItem
  | firstKey
  | key
  | colon
  | after
  | nothing (whole : Document)

/-- The containers under way, innermost first, and what may come next. -/
structure Parsing where
  frames : List Frame := []
  expected : Expected := .value

namespace Parsing

/-- Put a complete value where it belongs. -/
def place? (frames : List Frame) (d : Document) : Option Parsing :=
  match frames with
  | [] => some ⟨[], .nothing d⟩
  | .array items :: rest => some ⟨.array (d :: items) :: rest, .after⟩
  | .member members key :: rest => some ⟨.object ((key, d) :: members) :: rest, .after⟩
  | .object _ :: _ => none

/-- Start a value with its first token. -/
def begin? (frames : List Frame) : Token → Option Parsing
  | .openArray => some ⟨.array [] :: frames, .firstItem⟩
  | .openObject => some ⟨.object [] :: frames, .firstKey⟩
  | .null => place? frames .null
  | .bool b => place? frames (.bool b)
  | .natural n => place? frames (.natural n)
  | .number => place? frames .number
  | .string s => place? frames (.string s)
  | .closeArray | .closeObject | .comma | .colon => none

/-- Close the innermost container with its last token. -/
def close? : List Frame → Token → Option Parsing
  | .array items :: rest, .closeArray => place? rest (.array items.reverse)
  | .object members :: rest, .closeObject => place? rest (.object members.reverse)
  | _, _ => none

/-- Start a member with its key. -/
def key? : List Frame → Token → Option Parsing
  | .object members :: rest, .string key => some ⟨.member members key :: rest, .colon⟩
  | _, _ => none

/-- Take one token into account. -/
def next? (p : Parsing) (t : Token) : Option Parsing :=
  match p.expected with
  | .value => begin? p.frames t
  | .firstItem => if t = .closeArray then close? p.frames t else begin? p.frames t
  | .firstKey => if t = .closeObject then close? p.frames t else key? p.frames t
  | .key => key? p.frames t
  | .colon => if t = .colon then some ⟨p.frames, .value⟩ else none
  | .after =>
      if t = .comma then
        match p.frames with
        | .array _ :: _ => some ⟨p.frames, .value⟩
        | _ => some ⟨p.frames, .key⟩
      else close? p.frames t
  | .nothing _ => none

end Parsing

/-- The document that a text spells, if it is one. -/
def parse? (text : String) : Option Document := do
  let p ← (← tokens? text).foldlM Parsing.next? {}
  match p.expected with
  | .nothing d => some d
  | _ => none

end Document

end SparseScan
