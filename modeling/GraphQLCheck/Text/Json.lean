/-!
# Written JSON

A `Json` value is written with one item a line and two blanks for each level of depth, as people
read it. Empty arrays and objects stay on one line.
-/

namespace GraphQLCheck

/-- A value that can be written as JSON. -/
inductive Json where
  | number (n : Nat)
  | string (s : String)
  | array (items : List Json)
  | object (members : List (String × Json))

namespace Json

/-- The written form of a character between quotes: quotes, backslashes and control characters are
escaped. -/
def escape (c : Char) : String :=
  if c = '"' then "\\\""
  else if c = '\\' then "\\\\"
  else if c = '\n' then "\\n"
  else if c = '\r' then "\\r"
  else if c = '\t' then "\\t"
  else if c = '\x08' then "\\b"
  else if c = '\x0c' then "\\f"
  else if c.toNat < 32 then
    "\\u00" ++ String.ofList [Nat.digitChar (c.toNat / 16), Nat.digitChar (c.toNat % 16)]
  else c.toString

/-- A text between quotes. -/
def quote (s : String) : String := "\"" ++ String.join (s.toList.map escape) ++ "\""

/-- Written items between two brackets, each on a line of its own behind `indent` and two more
blanks. -/
def bracket (opening closing indent : String) (items : List String) : String :=
  if items = [] then opening ++ closing
  else
    opening ++ "\n" ++ String.intercalate ",\n" (items.map (indent ++ "  " ++ ·)) ++
      "\n" ++ indent ++ closing

mutual

/-- The written form of a value whose first line stands behind `indent`. -/
def write (indent : String) : Json → String
  | number n => toString n
  | string s => quote s
  | array items => bracket "[" "]" indent (writeItems (indent ++ "  ") items)
  | object members => bracket "\x7b" "\x7d" indent (writeMembers (indent ++ "  ") members)

/-- The written forms of the items of an array. -/
def writeItems (indent : String) : List Json → List String
  | [] => []
  | item :: rest => write indent item :: writeItems indent rest

/-- The written forms of the members of an object. -/
def writeMembers (indent : String) : List (String × Json) → List String
  | [] => []
  | (key, value) :: rest => (quote key ++ ": " ++ write indent value) :: writeMembers indent rest

end

/-- The text of a value. -/
def text (j : Json) : String := j.write ""

end Json

end GraphQLCheck
