import GraphQLCheck.Language.Reading.Value
import GraphQLCheck.Language.TypeSystem

/-!
# Reading type system documents

`TypeSystem.Document.read` reads a text as a type system document, or returns the place of the
first token that cannot continue one. Two mistakes show only once a definition has been read, and
are located at its keyword: a schema block that names an unknown root or a root twice, and an
extension that adds nothing.
-/

namespace GraphQLCheck

namespace TypeSystem

namespace Reading

open GraphQLCheck.Reading

/-- Reads a description if one comes next. -/
def description (ts : List Token) : ReadSome (Option String) ts :=
  match ts with
  | [] => .nothing none []
  | t :: rest =>
    match t.lexeme with
    | .string s => .head (some s) t rest
    | _ => .nothing none (t :: rest)

/-- The place of the next token. -/
def nextPlace : List Token → Position
  | [] => .start
  | t :: _ => t.position

/-- Reads an argument definition or an input field. -/
def inputValue (ts : List Token) : Except Refusal (Read InputValue ts) := do
  let ⟨doc, rest₁, h₁⟩ := description ts
  let ⟨(_, s), rest₂, h₂⟩ ← name rest₁
  let ⟨_, rest₃, h₃⟩ ← mark .colon rest₂
  let ⟨type, rest₄, h₄⟩ ← typeExpr rest₃
  let ⟨default, rest₅, h₅⟩ ← defaultValue rest₄
  let applied ← directives rest₅
  let v := applied.map fun _ => (⟨nextPlace ts, doc, s, type, default⟩ : InputValue)
  return ((((v.afterSome h₅).after h₄).after h₃).after h₂).afterSome h₁

/-- Reads argument definitions in parentheses, if an opening one comes next. -/
def argumentDefinitions (ts : List Token) : Except Refusal (ReadSome (List InputValue) ts) :=
  optionalItems .openParen .closeParen inputValue ts

/-- Reads a field of an object or an interface. -/
def field (ts : List Token) : Except Refusal (Read Field ts) := do
  let ⟨doc, rest₁, h₁⟩ := description ts
  let ⟨(_, s), rest₂, h₂⟩ ← name rest₁
  let ⟨args, rest₃, h₃⟩ ← argumentDefinitions rest₂
  let ⟨_, rest₄, h₄⟩ ← mark .colon rest₃
  let ⟨type, rest₅, h₅⟩ ← typeExpr rest₄
  let applied ← directives rest₅
  let f := applied.map fun _ => (⟨nextPlace ts, doc, s, args, type⟩ : Field)
  return ((((f.after h₅).after h₄).afterSome h₃).after h₂).afterSome h₁

/-- Reads a value of an enum. -/
def enumValue (ts : List Token) : Except Refusal (Read EnumValue ts) := do
  let ⟨doc, rest₁, h₁⟩ := description ts
  let ⟨(_, s), rest₂, h₂⟩ ← name rest₁
  let applied ← directives rest₂
  return ((applied.map fun _ => ⟨nextPlace ts, doc, s⟩).after h₂).afterSome h₁

/-- Reads a name without its place. -/
def plainName (ts : List Token) : Except Refusal (Read String ts) := do
  return (← name ts).map Prod.snd

/-- Reads the interfaces that a type implements, if the word `implements` comes next. -/
def interfaces (ts : List Token) : Except Refusal (ReadSome (List String) ts) := do
  match skipName "implements" ts with
  | ⟨false, _, _⟩ => return .nothing [] ts
  | ⟨true, rest, h⟩ => return ((← separatedItems .ampersand plainName rest).afterSome h).toSome

/-- What a type definition or extension writes after the name, and whether it applies a
directive. -/
abbrev Written := Body × Bool

/-- Reads what an object or an interface writes after its name. -/
def fieldedBody (make : List String → List Field → Body) (ts : List Token) :
    Except Refusal (ReadSome Written ts) := do
  let ⟨implemented, rest₁, h₁⟩ ← interfaces ts
  let ⟨applied, rest₂, h₂⟩ ← directives rest₁
  let fields ← optionalItems .openBrace .closeBrace field rest₂
  let written := fields.map fun fields => (make implemented fields, !applied.isEmpty)
  return (written.afterSome h₂).afterSome h₁

/-- Reads what a union writes after its name. -/
def unionBody (ts : List Token) : Except Refusal (ReadSome Written ts) := do
  let ⟨applied, rest₁, h₁⟩ ← directives ts
  match skipMark .equals rest₁ with
  | ⟨false, _, _⟩ => return ⟨(.union [], !applied.isEmpty), rest₁, h₁⟩
  | ⟨true, rest₂, h₂⟩ =>
    let members ← separatedItems .bar plainName rest₂
    let written := members.map fun members => (Body.union members, !applied.isEmpty)
    return ((written.afterSome h₂).afterSome h₁).toSome

/-- Reads what an enum writes after its name. -/
def enumBody (ts : List Token) : Except Refusal (ReadSome Written ts) := do
  let ⟨applied, rest₁, h₁⟩ ← directives ts
  let values ← optionalItems .openBrace .closeBrace enumValue rest₁
  return (values.map fun values => (.enum values, !applied.isEmpty)).afterSome h₁

/-- Reads what an input object writes after its name. -/
def inputObjectBody (ts : List Token) : Except Refusal (ReadSome Written ts) := do
  let ⟨applied, rest₁, h₁⟩ ← directives ts
  let fields ← optionalItems .openBrace .closeBrace inputValue rest₁
  return (fields.map fun fields => (.inputObject fields, !applied.isEmpty)).afterSome h₁

/-- Reads what a type of the given kind writes after its name. -/
def body (kind : TypeKind) (ts : List Token) : Except Refusal (ReadSome Written ts) :=
  match kind with
  | .scalar => do return (← directives ts).map fun applied => (.scalar, !applied.isEmpty)
  | .object => fieldedBody .object ts
  | .interface => fieldedBody .interface ts
  | .union => unionBody ts
  | .enum => enumBody ts
  | .inputObject => inputObjectBody ts

/-- Reads the keyword of a kind of type, and returns the kind with its place. -/
def typeKeyword (ts : List Token) : Except Refusal (Read (Position × TypeKind) ts) := do
  let ⟨(place, s), rest, h⟩ ← name ts
  match TypeKind.ofKeyword? s with
  | some kind => return ⟨(place, kind), rest, h⟩
  | none => .error (.here place)

/-- Whether an extension with this body, and with or without directives, adds something to its
type. The interfaces that an interface implements do not count. -/
def addsSomething : Written → Bool
  | (.scalar, applies) => applies
  | (.object names fields, applies) => applies || !names.isEmpty || !fields.isEmpty
  | (.interface _ fields, applies) => applies || !fields.isEmpty
  | (.union members, applies) => applies || !members.isEmpty
  | (.enum values, applies) => applies || !values.isEmpty
  | (.inputObject fields, applies) => applies || !fields.isEmpty

/-- Reads a location of a directive. -/
def directiveLocation (ts : List Token) : Except Refusal (Read DirectiveLocation ts) := do
  let ⟨(place, s), rest, h⟩ ← name ts
  match DirectiveLocation.ofName? s with
  | some location => return ⟨location, rest, h⟩
  | none => .error (.here place)

/-- Whether a list of directive locations comes next. -/
def nextIsLocation : List Token → Bool
  | [] => false
  | t :: _ =>
    match t.lexeme with
    | .name _ => true
    | .mark .bar => true
    | _ => false

/-- Reads a directive definition after its keyword, which stood at `place`. -/
def directiveDefinition (place : Position) (doc : Option String) (ts : List Token) :
    Except Refusal (Read Definition ts) := do
  let ⟨_, rest₁, h₁⟩ ← mark .atSign ts
  let ⟨(_, s), rest₂, h₂⟩ ← name rest₁
  let ⟨args, rest₃, h₃⟩ ← argumentDefinitions rest₂
  let ⟨_, rest₄, h₄⟩ := skipName "repeatable" rest₃
  let ⟨_, rest₅, h₅⟩ ← keyword "on" rest₄
  if nextIsLocation rest₅ then
    let locations ← separatedItems .bar directiveLocation rest₅
    let d := locations.map fun locations => Definition.directive ⟨place, doc, s, args, locations⟩
    return ((((d.after h₅).afterSome h₄).afterSome h₃).after h₂).after h₁
  else
    let d := ReadSome.nothing (Definition.directive ⟨place, doc, s, args, []⟩) rest₅
    return ((((d.after h₅).afterSome h₄).afterSome h₃).after h₂).after h₁

/-- Puts the roots that a schema block names into their places, or finds that a name is no root
or comes twice. -/
def collectRoots (block : SchemaBlock) : List (String × String) → Option SchemaBlock
  | [] => some block
  | (root, type) :: rest =>
    match root, block with
    | "query", ⟨place, none, m, s⟩ => collectRoots ⟨place, some type, m, s⟩ rest
    | "mutation", ⟨place, q, none, s⟩ => collectRoots ⟨place, q, some type, s⟩ rest
    | "subscription", ⟨place, q, m, none⟩ => collectRoots ⟨place, q, m, some type⟩ rest
    | _, _ => none

/-- Reads one root of a schema block. -/
def root (ts : List Token) : Except Refusal (Read (String × String) ts) := do
  let ⟨(_, kind), rest₁, h₁⟩ ← name ts
  let ⟨_, rest₂, h₂⟩ ← mark .colon rest₁
  let type ← plainName rest₂
  return ((type.map fun type => (kind, type)).after h₂).after h₁

/-- Reads a schema block after its keyword, which stood at `place`. -/
def schemaBlock (place : Position) (ts : List Token) :
    Except Refusal (Read Definition ts) := do
  let ⟨_, rest₁, h₁⟩ ← directives ts
  let ⟨_, rest₂, h₂⟩ ← mark .openBrace rest₁
  let roots ← itemsUntil .closeBrace (n := rest₁.length) (fun ts _ => root ts) rest₂ h₂
  match collectRoots ⟨place, none, none, none⟩ roots.value.1 with
  | some block => return ((roots.map fun _ => .schema block).after h₂).afterSome h₁
  | none => .error (.here place)

/-- Reads an extension after the word `extend`. -/
def typeExtension (ts : List Token) : Except Refusal (Read Definition ts) := do
  let ⟨(place, kind), rest₁, h₁⟩ ← typeKeyword ts
  let ⟨s, rest₂, h₂⟩ ← plainName rest₁
  let written ← body kind rest₂
  if addsSomething written.value then
    return ((written.map fun (body, _) => .extension ⟨place, s, body⟩).after h₂).after h₁
  else .error (.here place)

/-- Reads a definition that may have a description, after that description. -/
def describedDefinition (doc : Option String) (ts : List Token) :
    Except Refusal (Read Definition ts) := do
  if nextIsName "directive" ts then
    let ⟨place, rest, h⟩ ← keyword "directive" ts
    return (← directiveDefinition place doc rest).after h
  else
    let ⟨(place, kind), rest₁, h₁⟩ ← typeKeyword ts
    let ⟨s, rest₂, h₂⟩ ← plainName rest₁
    let written ← body kind rest₂
    return ((written.map fun (body, _) => .type ⟨place, doc, s, body⟩).after h₂).after h₁

/-- Reads a definition of a type system document. -/
def definition (ts : List Token) : Except Refusal (Read Definition ts) :=
  match ts with
  | [] => refuse []
  | t :: rest =>
    match t.lexeme with
    | .name "schema" => return (← schemaBlock t.position rest).behind t
    | .name "extend" => return (← typeExtension rest).behind t
    | .string s => return (← describedDefinition (some s) rest).behind t
    | _ => describedDefinition none (t :: rest)

end Reading

/-- Reads a text as a type system document, or returns the place where it is none. -/
def Document.read (text : String) : Except Position Document :=
  (GraphQLCheck.Reading.wholeText Reading.definition text).map Document.mk

end TypeSystem

end GraphQLCheck
