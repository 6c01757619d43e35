/-!
# String literals

A value enters a fragment between single quotes, after an escaper has made it safe to stand there.
There are two escapers, one for each way in which databases read a literal: with backslash
escapes, or with nothing special but a doubled quote.
-/

namespace FieldQuery.Sql

/-- Makes a value safe to stand between single quotes. -/
abbrev Escaper := String → String

/-- The backslash form of a character that a literal cannot hold as it is. -/
def mysqlEscape? (c : Char) : Option Char :=
  if c = '\x00' then some '0'
  else if c = '\n' then some 'n'
  else if c = '\r' then some 'r'
  else if c = '\x1a' then some 'Z'
  else if c = '\\' ∨ c = '\x27' ∨ c = '"' then some c
  else none

/-- Puts a backslash before quotes and backslashes, and writes NUL, line feed, carriage return and
U+001A as a backslash and a letter or digit. -/
def escapeMysqlChars (s : List Char) : List Char :=
  s.flatMap fun c =>
    match mysqlEscape? c with
    | some d => ['\\', d]
    | none => [c]

/-- The escaper for literals with backslash escapes. -/
def mysql : Escaper := fun value =>
  String.ofList (escapeMysqlChars value.toList)

/-- Writes every occurrence of a quote character twice. -/
def doubleChars (quote : Char) (s : List Char) : List Char :=
  s.flatMap fun c => if c = quote then [c, c] else [c]

/-- The escaper for standard literals, in which only the single quote is special. -/
def ansi : Escaper := fun value =>
  String.ofList (doubleChars '\x27' value.toList)

/-- The literal of a value. -/
def literal (escaper : Escaper) (value : String) : String :=
  "'" ++ escaper value ++ "'"

end FieldQuery.Sql
