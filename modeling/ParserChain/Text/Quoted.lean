import ParserChain.Text.Unprintable

/-! Quoted text. A quote and a backslash are written after a backslash, four controls have a short
form, and every other character that cannot be shown is written by its code in braces. -/
namespace ParserChain

/-- Whether a character stands for itself between quotes, backslash and quote apart. -/
def isShown (c : Char) : Bool :=
  if c.toNat < 0x80 then 0x20 ≤ c.toNat && c.toNat ≠ 0x7f else !Unprintable.contains c.toNat

/-- The code of a character in lower-case hexadecimal, in braces. -/
def codeEscape (c : Char) : List Char :=
  '\\' :: 'u' :: '\x7b' :: (Nat.toDigits 16 c.toNat ++ ['\x7d'])

def escape (c : Char) : List Char :=
  match c with
  | '\x00' => ['\\', '0']
  | '\t' => ['\\', 't']
  | '\r' => ['\\', 'r']
  | '\n' => ['\\', 'n']
  | '"' => ['\\', '"']
  | '\\' => ['\\', '\\']
  | c => if isShown c then [c] else codeEscape c

/-- A text between double quotes. -/
def quote (text : String) : String :=
  String.ofList ('"' :: (text.toList.flatMap escape ++ ['"']))

theorem toList_quote (text : String) :
    (quote text).toList = '"' :: (text.toList.flatMap escape ++ ['"']) := by
  simp [quote]

example : quote "a\"\n\x1b'" = "\"a\\\"\\n\\u\x7b1b\x7d'\"" := by decide +kernel
example : quote "\u0301é" = "\"\\u\x7b301\x7dé\"" := by decide +kernel

end ParserChain
