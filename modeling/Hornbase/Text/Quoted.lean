import Hornbase.Text.ExtendingMark
import Hornbase.Text.Unprintable

/-!
# Quoted text

The form in which a log line shows a relation name: between double quotes, on one line, with every
character visible. Single quotes stand as they are.
-/

namespace Hornbase.Text

/-- The escape of a character by its code point, in lower-case hexadecimal without leading zeros. -/
def escapeCodePoint (c : Char) : String :=
  "\\u\x7b" ++ String.ofList (Nat.toDigits 16 c.toNat) ++ "\x7d"

/-- How a character is written between the quotes. -/
def escape (c : Char) : String :=
  match c with
  | '\x00' => "\\0"
  | '\t' => "\\t"
  | '\r' => "\\r"
  | '\n' => "\\n"
  | '\\' => "\\\\"
  | '"' => "\\\""
  | c =>
    -- Most names are plain ASCII, and the tables need not be searched for those.
    if ' ' ≤ c && c ≤ '~' then c.toString
    else if isExtendingMark c || !isPrintable c then escapeCodePoint c
    else c.toString

/-- The text between double quotes, with its characters escaped. -/
def quote (s : String) : String :=
  "\"" ++ String.join (s.toList.map escape) ++ "\""

example : quote "a\t'b'\"\n" = "\"a\\t'b'\\\"\\n\"" := by decide

example : quote "é" = "\"é\"" := by decide +kernel

/-- A combining accent is escaped wherever it stands. -/
example : quote "e\u0301" = "\"e\\u\x7b301\x7d\"" := by decide +kernel

/-- A half-width sound mark has a place of its own and is not. -/
example : quote "\uff76\uff9e" = "\"\uff76\uff9e\"" := by decide +kernel

/-- A Hangul filler looks like nothing and is escaped. -/
example : quote "a\u115f" = "\"a\\u\x7b115f\x7d\"" := by decide +kernel

/-- A space other than U+0020 is escaped. -/
example : quote "\u00a0" = "\"\\u\x7ba0\x7d\"" := by decide +kernel

end Hornbase.Text
