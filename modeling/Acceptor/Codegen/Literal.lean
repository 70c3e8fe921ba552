import Acceptor.Codegen.Token
import Acceptor.Text.Blank

/-!
# Reading literals

Characters and strings as they are written in source. Between quotes an escape
stands for one character, the end of a line is a newline however the line ends, and
a backslash at the end of a line stands for nothing together with the blanks behind
it. A raw string has no escapes and ends at a quote followed by as many hashes as
stand before its opening quote. A name right behind the closing quote belongs to the
literal and does not change what it denotes.
-/

namespace Acceptor.Codegen

def hexValue? (c : Char) : Option Nat :=
  if '0' ≤ c ∧ c ≤ '9' then some (c.toNat - '0'.toNat)
  else if 'a' ≤ c ∧ c ≤ 'f' then some (c.toNat - 'a'.toNat + 10)
  else if 'A' ≤ c ∧ c ≤ 'F' then some (c.toNat - 'A'.toNat + 10)
  else none

/-- The character that a letter or a mark behind a backslash stands for. -/
def shortEscape? (c : Char) : Option Char :=
  if c = 'n' then some '\n'
  else if c = 't' then some '\t'
  else if c = 'r' then some '\r'
  else if c = '0' then some '\x00'
  else if c = '\\' ∨ c = '\'' ∨ c = '"' then some c
  else none

/-- Puts an item in front of what was read. -/
def prepend {α : Type} (a : α) (read : Option (List α × List α)) : Option (List α × List α) :=
  read.map fun (body, rest) => (a :: body, rest)

mutual

/-- Reads a literal up to its closing quote: the characters that it denotes and the text
behind it. An escape of two digits denotes a number below `limit`. While `skipping`,
blanks are passed over, since a backslash has ended the line. -/
def readBody (quote : Char) (limit : Nat) (skipping : Bool) :
    List Char → Option (List Char × List Char)
  | [] => none
  | c :: rest =>
    if c = '\r' then
      match rest with
      | '\n' :: rest =>
        if skipping then readBody quote limit true rest
        else prepend '\n' (readBody quote limit false rest)
      | _ => none
    else if skipping && (c = ' ' || c = '\t' || c = '\n') then readBody quote limit true rest
    else if c = quote then some ([], rest)
    else if c = '\\' then readEscape quote limit rest
    else prepend c (readBody quote limit false rest)

def readEscape (quote : Char) (limit : Nat) : List Char → Option (List Char × List Char)
  | [] => none
  | c :: rest =>
    if c = 'u' then
      match rest with
      | '{' :: rest => readNumber quote limit 0 0 rest
      | _ => none
    else if c = 'x' then
      match rest with
      | high :: low :: rest =>
        match hexValue? high, hexValue? low with
        | some high, some low =>
          if 16 * high + low < limit then
            prepend (Char.ofNat (16 * high + low)) (readBody quote limit false rest)
          else none
        | _, _ => none
      | _ => none
    else if c = '\n' then readBody quote limit true rest
    else if c = '\r' then
      match rest with
      | '\n' :: rest => readBody quote limit true rest
      | _ => none
    else
      match shortEscape? c with
      | some d => prepend d (readBody quote limit false rest)
      | none => none

/-- Goes on inside the braces of a number of one to six digits, of which `count` are
read and form the number `value`. -/
def readNumber (quote : Char) (limit count value : Nat) :
    List Char → Option (List Char × List Char)
  | [] => none
  | c :: rest =>
    if c = '}' then
      if 0 < count ∧ value.isValidChar then
        prepend (Char.ofNat value) (readBody quote limit false rest)
      else none
    else if c = '_' then
      if 0 < count then readNumber quote limit count value rest else none
    else
      match hexValue? c with
      | some digit =>
        if count < 6 then readNumber quote limit (count + 1) (16 * value + digit) rest else none
      | none => none

end

/-- Reads a literal without escapes, which ends at a quote followed by `hashes`. -/
def readRaw (hashes : List Char) : List Char → Option (List Char × List Char)
  | [] => none
  | c :: rest =>
    if c = '"' ∧ hashes.isPrefixOf rest then some ([], rest.drop hashes.length)
    else prepend c (readRaw hashes rest)

/-- Reads a raw string from behind its letter. -/
def readRawString? (text : List Char) : Option (List Char × List Char) :=
  match text.dropWhile (· = '#') with
  | '"' :: body => readRaw (text.takeWhile (· = '#')) body
  | _ => none

/-- Reads a character from behind its opening quote. -/
def readChar? (limit : Nat) : List Char → Option (Char × List Char)
  | '\\' :: rest =>
    match readEscape '\'' limit rest with
    | some ([c], rest) => some (c, rest)
    | _ => none
  | c :: '\'' :: rest => some (c, rest)
  | _ => none

def isWordChar (c : Char) : Bool :=
  c.isAlphanum || c = '_' || (128 ≤ c.toNat && !Text.isBlank c)

def isNameStart (c : Char) : Bool := isWordChar c && !c.isDigit

/-- Drops the name that stands right behind a literal, if there is one. -/
def dropSuffix : List Char → List Char
  | [] => []
  | c :: rest => if isNameStart c then rest.dropWhile isWordChar else c :: rest

/-- A token for what stands in `text` before `rest`, as it is spelled. -/
def spelled (text rest : List Char) : Token :=
  .word (String.ofList (text.take (text.length - rest.length)))

/-- The literal at the front of a text, if there is one, and the text behind it. Strings
of bytes and the like are not told apart; they are kept as they are spelled. -/
def readLiteral? (text : List Char) : Option (Token × List Char) :=
  match text with
  | '"' :: rest => (readBody '"' 128 false rest).map string
  | 'r' :: rest => (readRawString? rest).map string
  | '\'' :: rest => (readChar? 128 rest).map fun (c, rest) => (.char c, dropSuffix rest)
  | 'b' :: '\'' :: rest => (readChar? 256 rest).map other
  | 'b' :: '"' :: rest | 'c' :: '"' :: rest => (readBody '"' 256 false rest).map other
  | 'b' :: 'r' :: rest | 'c' :: 'r' :: rest => (readRawString? rest).map other
  | _ => none
where
  string : List Char × List Char → Token × List Char
    | (body, rest) => (.text (String.ofList body), dropSuffix rest)
  other {α : Type} : α × List Char → Token × List Char
    | (_, rest) => (spelled text rest, dropSuffix rest)

end Acceptor.Codegen
