import ModuloPipelining.Json.Basic

/-!
# Writing JSON text

Two layouts. `Json.compact` writes no blank at all. `Json.pretty` puts every array element and
object member on a line of its own, indented by two blanks per level, with `": "` after a key;
an empty array or object stays `[]` or `{}` on one line.

Strings escape the quote, the backslash and each control character below U+0020: the five with
a short form (`\b`, `\t`, `\n`, `\f`, `\r`) use it, the others become `\u00XX` with lowercase
hex digits. Every other character, ASCII or not, is written as it is. An unreadable value is
written as the text it was read from.
-/

namespace ModuloPipelining

namespace Json

/-- Lowercase hexadecimal digit of a number below 16. -/
def hexDigit (n : Nat) : Char :=
  if n < 10 then Char.ofNat (48 + n) else Char.ofNat (87 + n)

/-- The written form of one character inside a string literal. -/
def escapeChar (c : Char) : String :=
  if c = '"' then "\\\""
  else if c = '\\' then "\\\\"
  else if c = '\n' then "\\n"
  else if c = '\r' then "\\r"
  else if c = '\t' then "\\t"
  else if c.toNat = 8 then "\\b"
  else if c.toNat = 12 then "\\f"
  else if c.toNat < 32 then
    "\\u00" ++ (hexDigit (c.toNat / 16)).toString ++ (hexDigit (c.toNat % 16)).toString
  else c.toString

/-- A string literal: the characters escaped one by one, between quotes. -/
def quote (s : String) : String :=
  "\"" ++ String.join (s.toList.map escapeChar) ++ "\""

mutual
/-- The text of a value with no blank between tokens. -/
def compact : Json → String
  | .null => "null"
  | .bool b => if b then "true" else "false"
  | .int n => toString n
  | .float literal => literal
  | .str s => quote s
  | .unreadable text => text
  | .arr elems => "[" ++ compactList elems ++ "]"
  | .obj fields => "\x7b" ++ compactFields fields ++ "\x7d"

/-- Elements separated by commas. -/
def compactList : List Json → String
  | [] => ""
  | [j] => compact j
  | j :: rest => compact j ++ "," ++ compactList rest

/-- Members separated by commas. -/
def compactFields : List (String × Json) → String
  | [] => ""
  | [(k, j)] => quote k ++ ":" ++ compact j
  | (k, j) :: rest => quote k ++ ":" ++ compact j ++ "," ++ compactFields rest
end

/-- Two blanks per level. -/
def indentation (level : Nat) : String :=
  String.join (List.replicate level "  ")

mutual
/-- The text of a value at nesting `level`, one element or member per line. -/
def prettyAt (level : Nat) : Json → String
  | .arr [] => "[]"
  | .arr elems => "[\n" ++ prettyList (level + 1) elems ++ "\n" ++ indentation level ++ "]"
  | .obj [] => "\x7b\x7d"
  | .obj fields =>
    "\x7b\n" ++ prettyFields (level + 1) fields ++ "\n" ++ indentation level ++ "\x7d"
  | j => compact j

/-- Indented elements separated by a comma and a line break. -/
def prettyList (level : Nat) : List Json → String
  | [] => ""
  | [j] => indentation level ++ prettyAt level j
  | j :: rest => indentation level ++ prettyAt level j ++ ",\n" ++ prettyList level rest

/-- Indented members separated by a comma and a line break. -/
def prettyFields (level : Nat) : List (String × Json) → String
  | [] => ""
  | [(k, j)] => indentation level ++ quote k ++ ": " ++ prettyAt level j
  | (k, j) :: rest =>
    indentation level ++ quote k ++ ": " ++ prettyAt level j ++ ",\n" ++ prettyFields level rest
end

/-- The indented text of a document. -/
def pretty (j : Json) : String := prettyAt 0 j

theorem escapeChar_of_plain (c : Char) (h : 32 ≤ c.toNat) (hq : c ≠ '"') (hb : c ≠ '\\') :
    escapeChar c = c.toString := by
  have h1 : c ≠ '\n' := by intro e; subst e; simp at h
  have h2 : c ≠ '\r' := by intro e; subst e; simp at h
  have h3 : c ≠ '\t' := by intro e; subst e; simp at h
  have h8 : c.toNat ≠ 8 := by omega
  have h12 : c.toNat ≠ 12 := by omega
  have h32 : ¬ c.toNat < 32 := by omega
  simp [escapeChar, hq, hb, h1, h2, h3, h8, h12, h32]

example : compact (.obj [("a", .arr [.int 1, .null]), ("b", .str "x\ny")]) =
    "\x7b\"a\":[1,null],\"b\":\"x\\ny\"\x7d" := by decide

example : pretty (.obj [("a", .arr [.int 1]), ("b", .arr [])]) =
    "\x7b\n  \"a\": [\n    1\n  ],\n  \"b\": []\n\x7d" := by decide

end Json

end ModuloPipelining
