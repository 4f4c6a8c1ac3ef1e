/-! JSON documents without floats, and their indented text: two spaces for each level, fields in
their order, an empty list or object on one line. -/
namespace ParserChain

inductive Document
  | bool (value : Bool)
  | int (value : Int)
  | str (text : String)
  | list (items : List Document)
  | object (fields : List (String × Document))

namespace Document

/-- The short form of a control character, or its code in four hexadecimal digits. -/
def escapeControl (c : Char) : List Char :=
  match c with
  | '\x08' => ['\\', 'b']
  | '\t' => ['\\', 't']
  | '\n' => ['\\', 'n']
  | '\x0c' => ['\\', 'f']
  | '\r' => ['\\', 'r']
  | c => ['\\', 'u', '0', '0', Nat.digitChar (c.toNat / 16), Nat.digitChar (c.toNat % 16)]

def escape (c : Char) : List Char :=
  if c = '"' then ['\\', '"']
  else if c = '\\' then ['\\', '\\']
  else if c.toNat < 0x20 then escapeControl c
  else [c]

def stringText (text : String) : String :=
  String.ofList ('"' :: (text.toList.flatMap escape ++ ['"']))

/-- A line break and the indentation of a level. -/
def newLine (level : Nat) : String := String.ofList ('\n' :: List.replicate (2 * level) ' ')

/-- Items on lines of their own between two brackets. -/
def block (opening closing : String) (level : Nat) (items : List String) : String :=
  if items.isEmpty then opening ++ closing
  else
    opening ++ ",".intercalate (items.map (newLine (level + 1) ++ ·)) ++ newLine level ++ closing

mutual
/-- The text of a document whose first line stands at the level. -/
def textAt (level : Nat) : Document → String
  | .bool value => if value then "true" else "false"
  | .int value => value.repr
  | .str text => stringText text
  | .list items => block "[" "]" level (itemTexts (level + 1) items)
  | .object fields => block "\x7b" "\x7d" level (fieldTexts (level + 1) fields)

def itemTexts (level : Nat) : List Document → List String
  | [] => []
  | d :: ds => textAt level d :: itemTexts level ds

def fieldTexts (level : Nat) : List (String × Document) → List String
  | [] => []
  | f :: fs => fieldText level f :: fieldTexts level fs

def fieldText (level : Nat) : String × Document → String
  | (key, value) => stringText key ++ ": " ++ textAt level value
end

def text (d : Document) : String := d.textAt 0

example : (object [("a", list [int 1, str "\n"]), ("b", list [])]).text =
    "\x7b\n  \"a\": [\n    1,\n    \"\\n\"\n  ],\n  \"b\": []\n\x7d" := by decide +kernel

end Document
end ParserChain
