import JointModel.Text.Invisible
import JointModel.Text.Extending

/-!
# Quoted texts

A quoted text stands between double quotes.  Inside, the quote, the backslash
and the usual control characters are written with a backslash; a character
that cannot be seen on its own is written as its code point in hexadecimal.
-/

namespace JointModel.Text

/-- The characters that a backslash and a letter stand for. -/
def escapeLetter : Char → Option Char
  | '\x00' => some '0'
  | '\t' => some 't'
  | '\n' => some 'n'
  | '\r' => some 'r'
  | '\\' => some '\\'
  | '"' => some '"'
  | _ => none

/-- A character is written as its code point if it has no visible form or is
drawn as part of the one before it. -/
def needsCodePoint (c : Char) : Bool :=
  isExtending c || isInvisible c

/-- One character inside quotes. -/
def escapeChar (c : Char) : List Char :=
  match escapeLetter c with
  | some letter => ['\\', letter]
  | none =>
    if needsCodePoint c then
      ['\\', 'u', '\x7b'] ++ Nat.toDigits 16 c.toNat ++ ['\x7d']
    else [c]

/-- A text between double quotes. -/
def quoted (s : String) : String :=
  String.ofList (['"'] ++ s.toList.flatMap escapeChar ++ ['"'])

example : quoted "say \"hi\"\n" = "\"say \\\"hi\\\"\\n\"" := by decide +kernel
example : quoted "it's" = "\"it's\"" := by decide +kernel
example : quoted "e\u0301" = "\"e\\u\x7b301\x7d\"" := by decide +kernel
example : quoted "\uff76\uff9e" = "\"\uff76\uff9e\"" := by decide +kernel
example : quoted "\u3164" = "\"\\u\x7b3164\x7d\"" := by decide +kernel

end JointModel.Text
