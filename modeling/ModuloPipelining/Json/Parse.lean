import ModuloPipelining.Json.Basic
import ModuloPipelining.Json.Numeral

/-!
# Reading JSON text

`Json.parse?` reads one document. The grammar is the standard one, with these decisions:

* blanks are space, tab, line feed and carriage return, and may surround every token;
* a numeral is `-? (0 | [1-9][0-9]*) (. [0-9]+)? ([eE] [+-]? [0-9]+)?`; it is an integer when
  it has neither fraction nor exponent, is not `-0`, and lies in `[-2^63, 2^64)`, the range
  covered by the signed and unsigned 64-bit words of the format; every other numeral is kept as
  written in a `float`, provided its binary64 reading does not overflow (`Json.numeralOverflows`);
* a string holds no raw character below U+0020; a `\u` escape of a high surrogate must be
  followed by one of a low surrogate, and the pair stands for one character; a lone surrogate
  is refused;
* arrays and objects nest at most 127 deep;
* only blanks may follow the document.

`Json.parseDocument?` reads a document for a record reader, which skips members it does not
know and checks no more than the syntax of what it skips. The grammar is the same, but a value
that is well-formed text and breaks one of the rules above (an overflowing numeral, a lone
surrogate in a string or in a key of the object, nesting deeper than 127) does not refuse the
text: it is kept as written in a `Json.unreadable`, which every reader refuses where it looks.
Values nested too deep are checked by `Json.scanValue`, which keeps the open brackets on a
stack, so their depth costs no recursion.

Recursion runs on the remaining characters, or on a fuel count derived from the length of the
text and spent by every nested call.
-/
namespace ModuloPipelining

namespace Json

/-- Blanks that may surround tokens. -/
def isBlank (c : Char) : Bool :=
  c = ' ' || c = '\t' || c = '\n' || c = '\r'

/-- Drop leading blanks. -/
def skipBlanks (cs : List Char) : List Char := cs.dropWhile isBlank

/-- Value of a hexadecimal digit, either case. -/
def hexValue (c : Char) : Option Nat :=
  if '0' ≤ c ∧ c ≤ '9' then some (c.toNat - 48)
  else if 'a' ≤ c ∧ c ≤ 'f' then some (c.toNat - 87)
  else if 'A' ≤ c ∧ c ≤ 'F' then some (c.toNat - 55)
  else none

/-- The code unit written by four hexadecimal digits. -/
def hexUnit (a b c d : Char) : Option Nat := do
  let a ← hexValue a
  let b ← hexValue b
  let c ← hexValue c
  let d ← hexValue d
  pure (((a * 16 + b) * 16 + c) * 16 + d)

/-- Whether a code unit is a high (leading) surrogate. -/
def isHighSurrogate (u : Nat) : Bool := 0xD800 ≤ u && u < 0xDC00

/-- Whether a code unit is a low (trailing) surrogate. -/
def isLowSurrogate (u : Nat) : Bool := 0xDC00 ≤ u && u < 0xE000

/-- The character of a surrogate pair. -/
def surrogatePair (high low : Nat) : Char :=
  Char.ofNat (0x10000 + (high - 0xD800) * 0x400 + (low - 0xDC00))

/-- The body of a string literal after its opening quote, up to and without the closing quote;
`acc` holds the characters read so far, last first. -/
def readString (acc : List Char) : List Char → Option (String × List Char)
  | [] => none
  | '"' :: rest => some (String.ofList acc.reverse, rest)
  | '\\' :: '"' :: rest => readString ('"' :: acc) rest
  | '\\' :: '\\' :: rest => readString ('\\' :: acc) rest
  | '\\' :: '/' :: rest => readString ('/' :: acc) rest
  | '\\' :: 'b' :: rest => readString (Char.ofNat 8 :: acc) rest
  | '\\' :: 'f' :: rest => readString (Char.ofNat 12 :: acc) rest
  | '\\' :: 'n' :: rest => readString ('\n' :: acc) rest
  | '\\' :: 'r' :: rest => readString ('\r' :: acc) rest
  | '\\' :: 't' :: rest => readString ('\t' :: acc) rest
  | '\\' :: 'u' :: a :: b :: c :: d :: rest =>
    match hexUnit a b c d with
    | none => none
    | some u =>
      if isHighSurrogate u then
        match rest with
        | '\\' :: 'u' :: e :: f :: g :: h :: rest' =>
          match hexUnit e f g h with
          | some l => if isLowSurrogate l then readString (surrogatePair u l :: acc) rest' else none
          | none => none
        | _ => none
      else if isLowSurrogate u then none
      else readString (Char.ofNat u :: acc) rest
  | '\\' :: _ => none
  | c :: rest => if c.toNat < 32 then none else readString (c :: acc) rest

/-- The rest of the input after the body of a string literal, when the body is well-formed:
every escape is a short one or `\u` with four hexadecimal digits, whatever unit they write,
and no raw character lies below U+0020. Unlike `readString`, a surrogate needs no partner. -/
def skipString : List Char → Option (List Char)
  | [] => none
  | '"' :: rest => some rest
  | '\\' :: 'u' :: a :: b :: c :: d :: rest =>
    if (hexUnit a b c d).isSome then skipString rest else none
  | '\\' :: e :: rest =>
    if ['"', '\\', '/', 'b', 'f', 'n', 'r', 't'].contains e then skipString rest else none
  | '\\' :: [] => none
  | c :: rest => if c.toNat < 32 then none else skipString rest

/-- The text a reader passed over: the part of `before` that its suffix `after` no longer
holds. -/
def consumed (before after : List Char) : String :=
  String.ofList (before.take (before.length - after.length))

/-- The natural number written by decimal digits. -/
def digitsValue (ds : List Char) : Nat :=
  ds.foldl (fun n d => n * 10 + (d.toNat - 48)) 0

/-- A fraction `.digits`, at least one digit, or nothing. -/
def readFraction : List Char → Option (List Char × List Char)
  | '.' :: rest =>
    match rest.span Char.isDigit with
    | ([], _) => none
    | (ds, r) => some ('.' :: ds, r)
  | cs => some ([], cs)

/-- An exponent `e`, an optional sign and at least one digit, or nothing. -/
def readExponent : List Char → Option (List Char × List Char)
  | e :: rest =>
    if e = 'e' ∨ e = 'E' then
      let (sign, r) : List Char × List Char :=
        match rest with
        | '+' :: r => (['+'], r)
        | '-' :: r => (['-'], r)
        | r => ([], r)
      match r.span Char.isDigit with
      | ([], _) => none
      | (ds, r') => some (e :: sign ++ ds, r')
    else some ([], e :: rest)
  | [] => some ([], [])

/-- The value of an integer numeral, or `none` when the numeral is kept as written. -/
def integerValue (negative : Bool) (magnitude : Nat) : Option Int :=
  if negative then
    if magnitude = 0 ∨ Nat.pow 2 63 < magnitude then none else some (-(magnitude : Int))
  else if magnitude < u64Bound then some magnitude else none

/-- A numeral at the head of the input. One whose binary64 reading overflows is kept as
`Json.unreadable` when `keep`, and refused otherwise. -/
def readNumber (keep : Bool) (cs : List Char) : Option (Json × List Char) :=
  let (negative, body) : Bool × List Char :=
    match cs with
    | '-' :: r => (true, r)
    | r => (false, r)
  match body.span Char.isDigit with
  | ([], _) => none
  | ('0' :: _ :: _, _) => none
  | (ds, r) => do
    let (frac, r) ← readFraction r
    let (exp, r) ← readExponent r
    let literal := String.ofList ((if negative then ['-'] else []) ++ ds ++ frac ++ exp)
    let integer := if frac.isEmpty ∧ exp.isEmpty then integerValue negative (digitsValue ds) else none
    match integer with
    | some n => pure (.int n, r)
    | none =>
      let (negativeExponent, exponentDigits) : Bool × List Char :=
        match exp.drop 1 with
        | '-' :: ds' => (true, ds')
        | '+' :: ds' => (false, ds')
        | ds' => (false, ds')
      if numeralOverflows ds (frac.drop 1) negativeExponent exponentDigits then
        if keep then pure (.unreadable literal, r) else none
      else pure (.float literal, r)

/-- Arrays and objects may nest this deep, not deeper. -/
def maxDepth : Nat := 127

/-- Where a syntax scan stands: before a value, after one, or before an object key. -/
inductive ScanPoint where
  | value
  | after
  | key
  deriving DecidableEq, Repr

/-- Check the syntax of values without building them, and return the input after the scan.
`opened` holds the brackets of the arrays and objects still open, innermost first; after a
value with none open, the scan ends. -/
def scanValue : Nat → ScanPoint → List Char → List Char → Option (List Char)
  | 0, _, _, _ => none
  | fuel + 1, .value, opened, cs =>
    match skipBlanks cs with
    | 'n' :: 'u' :: 'l' :: 'l' :: rest => scanValue fuel .after opened rest
    | 't' :: 'r' :: 'u' :: 'e' :: rest => scanValue fuel .after opened rest
    | 'f' :: 'a' :: 'l' :: 's' :: 'e' :: rest => scanValue fuel .after opened rest
    | '"' :: rest =>
      match skipString rest with
      | some r => scanValue fuel .after opened r
      | none => none
    | '[' :: rest =>
      match skipBlanks rest with
      | ']' :: r => scanValue fuel .after opened r
      | r => scanValue fuel .value ('[' :: opened) r
    | '\x7b' :: rest =>
      match skipBlanks rest with
      | '\x7d' :: r => scanValue fuel .after opened r
      | r => scanValue fuel .key ('\x7b' :: opened) r
    | other =>
      match readNumber true other with
      | some (_, r) => scanValue fuel .after opened r
      | none => none
  | _ + 1, .after, [], cs => some cs
  | fuel + 1, .after, bracket :: opened, cs =>
    match skipBlanks cs with
    | ',' :: r => scanValue fuel (if bracket = '[' then .value else .key) (bracket :: opened) r
    | c :: r =>
      if (bracket = '[' ∧ c = ']') ∨ (bracket = '\x7b' ∧ c = '\x7d') then
        scanValue fuel .after opened r
      else none
    | [] => none
  | fuel + 1, .key, opened, cs =>
    match skipBlanks cs with
    | '"' :: rest =>
      match skipString rest with
      | some r =>
        match skipBlanks r with
        | ':' :: r' => scanValue fuel .value opened r'
        | _ => none
      | none => none
    | _ => none

/-- An array or object that opens deeper than `maxDepth` allows: kept as written when `keep`
and its syntax is sound, refused otherwise. Every scan step spends a character, so the length
of the input is fuel enough. -/
def deepValue (keep : Bool) (cs : List Char) : Option (Json × List Char) :=
  if keep then (scanValue (cs.length + 1) .value [] cs).map fun r => (.unreadable (consumed cs r), r)
  else none

mutual
/-- One value at the head of the input, inside `depth` open arrays and objects. With `keep`, a
value that cannot be read is kept as `Json.unreadable`; without, it refuses the input. -/
def readValue (keep : Bool) : Nat → Nat → List Char → Option (Json × List Char)
  | 0, _, _ => none
  | fuel + 1, depth, cs =>
    match skipBlanks cs with
    | 'n' :: 'u' :: 'l' :: 'l' :: rest => some (.null, rest)
    | 't' :: 'r' :: 'u' :: 'e' :: rest => some (.bool true, rest)
    | 'f' :: 'a' :: 'l' :: 's' :: 'e' :: rest => some (.bool false, rest)
    | '"' :: rest =>
      match readString [] rest with
      | some (s, r) => some (.str s, r)
      | none =>
        if keep then (skipString rest).map fun r => (.unreadable (consumed ('"' :: rest) r), r)
        else none
    | '[' :: rest =>
      if maxDepth ≤ depth then deepValue keep ('[' :: rest)
      else
        match skipBlanks rest with
        | ']' :: r => some (.arr [], r)
        | r => readElements keep fuel (depth + 1) [] r
    | '\x7b' :: rest =>
      if maxDepth ≤ depth then deepValue keep ('\x7b' :: rest)
      else
        match skipBlanks rest with
        | '\x7d' :: r => some (.obj [], r)
        | r => readMembers keep fuel (depth + 1) ('\x7b' :: rest) true [] r
    | other => readNumber keep other

/-- Elements of an array after its first token; `acc` holds those read, last first. -/
def readElements (keep : Bool) : Nat → Nat → List Json → List Char → Option (Json × List Char)
  | 0, _, _, _ => none
  | fuel + 1, depth, acc, cs =>
    match readValue keep fuel depth cs with
    | none => none
    | some (j, r) =>
      match skipBlanks r with
      | ',' :: r' => readElements keep fuel depth (j :: acc) r'
      | ']' :: r' => some (.arr (j :: acc).reverse, r')
      | _ => none

/-- Members of an object after its opening brace; `start` is the input from that brace,
`acc` holds the members read, last first, and `sound` whether every key read so far is
readable. An object with a key that is not is kept as `Json.unreadable`. -/
def readMembers (keep : Bool) :
    Nat → Nat → List Char → Bool → List (String × Json) → List Char → Option (Json × List Char)
  | 0, _, _, _, _, _ => none
  | fuel + 1, depth, start, sound, acc, cs =>
    match skipBlanks cs with
    | '"' :: r =>
      let key : Option (String × Bool × List Char) :=
        match readString [] r with
        | some (k, r1) => some (k, true, r1)
        | none => if keep then (skipString r).map fun r1 => ("", false, r1) else none
      match key with
      | none => none
      | some (k, readable, r1) =>
        match skipBlanks r1 with
        | ':' :: r2 =>
          match readValue keep fuel depth r2 with
          | none => none
          | some (v, r3) =>
            match skipBlanks r3 with
            | ',' :: r4 => readMembers keep fuel depth start (sound && readable) ((k, v) :: acc) r4
            | '\x7d' :: r4 =>
              if sound && readable then some (.obj ((k, v) :: acc).reverse, r4)
              else some (.unreadable (consumed start r4), r4)
            | _ => none
        | _ => none
    | _ => none
end

/-- One value with nothing but blanks around it, read with or without `keep`. -/
def parseWith (keep : Bool) (text : String) : Option Json :=
  let cs := text.toList
  match readValue keep (2 * cs.length + 2) 0 cs with
  | some (j, rest) => if skipBlanks rest = [] then some j else none
  | none => none

/-- The document written by a text; a value that cannot be read refuses the whole text. -/
def parse? (text : String) : Option Json := parseWith false text

/-- A document as a record reader takes it: a value that cannot be read is kept as
`Json.unreadable`, and only a reader that looks at it fails. -/
def parseDocument? (text : String) : Option Json := parseWith true text

example : integerValue true 0 = none := by decide
example : integerValue true (2 ^ 63) = some (-(2 ^ 63)) := by decide
example : integerValue false (2 ^ 64) = none := by decide

end Json

end ModuloPipelining
