import BlockAssembler.Text.Printable
import BlockAssembler.Text.Combining

/-! Quoted text: a string between double quotes in which every character can be
seen. Printable ASCII stands for itself except for the quote and the backslash;
five controls have a short escape; any other character that is not printable or
that extends its neighbour is written by its code point. -/

namespace BlockAssembler.Text

/-- Lower-case hexadecimal without leading zeros. -/
def hex (n : Nat) : String := String.ofList (Nat.toDigits 16 n)

def quotedChar (c : Char) : String :=
  match c with
  | '\x00' => "\\0"
  | '\t' => "\\t"
  | '\r' => "\\r"
  | '\n' => "\\n"
  | '"' => "\\\""
  | '\\' => "\\\\"
  | c =>
    if 0x20 ≤ c.toNat && c.toNat < 0x7f then c.toString
    else if isPrintable c && !isExtending c then c.toString
    else "\\u\x7b" ++ hex c.toNat ++ "\x7d"

/-- The text between double quotes, with escapes. -/
def quote (s : String) : String :=
  s.toList.foldl (fun out c => out ++ quotedChar c) "\"" ++ "\""

end BlockAssembler.Text
