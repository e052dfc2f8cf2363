import LinearPlan.Text.Printable

/-!
# Quoted texts

A quoted text stands between double quotes. Quotes and backslashes get a backslash, the seven
control characters with a letter of their own are written with it, other control characters with
two hexadecimal digits, and any other character that is not printable with its code point in four
or eight hexadecimal digits.
-/
namespace LinearPlan.Text

def hex (width n : Nat) : String :=
  let digits := Nat.toDigits 16 n
  String.ofList (List.replicate (width - digits.length) '0' ++ digits)

def escaped (c : Char) : String :=
  match c.toNat with
  | 0x22 => "\\\""
  | 0x5c => "\\\\"
  | 0x07 => "\\a"
  | 0x08 => "\\b"
  | 0x0c => "\\f"
  | 0x0a => "\\n"
  | 0x0d => "\\r"
  | 0x09 => "\\t"
  | 0x0b => "\\v"
  | n =>
    if isPrintable c then c.toString
    else if n < 0x20 ∨ n = 0x7f then "\\x" ++ hex 2 n
    else if n < 0x10000 then "\\u" ++ hex 4 n
    else "\\U" ++ hex 8 n

def quoted (s : String) : String :=
  "\"" ++ String.join (s.toList.map escaped) ++ "\""

def quotedList (texts : List String) : String :=
  "[" ++ " ".intercalate (texts.map quoted) ++ "]"

end LinearPlan.Text
