import GraphQLCheck.Language.Reading.Value

/-!
# Reading executable documents

`Document.read` reads a text as an executable document, or returns the place of the first token
that cannot continue one.
-/

namespace GraphQLCheck

namespace Reading

/-- The beginning of a selected field: everything before its selection set. -/
structure FieldHead where
  position : Position
  aliasName : Option String
  name : String
  arguments : List Argument
  directives : List Directive

/-- The field with the given selection set. -/
def FieldHead.toField (head : FieldHead) (selectionSet : SelectionSet) : Field :=
  ⟨head.position, head.aliasName, head.name, head.arguments, head.directives, selectionSet⟩

/-- Reads the alias and the name of a field with its place. -/
def fieldName (ts : List Token) :
    Except Refusal (Read (Position × Option String × String) ts) := do
  let ⟨(place, first), rest₁, h₁⟩ ← name ts
  match skipMark .colon rest₁ with
  | ⟨false, _, _⟩ => return ⟨(place, none, first), rest₁, h₁⟩
  | ⟨true, rest₂, h₂⟩ =>
    let second ← name rest₂
    return ((second.map fun (_, second) => (place, some first, second)).afterSome h₂).after h₁

/-- Reads a field up to its selection set. -/
def fieldHead (ts : List Token) : Except Refusal (Read FieldHead ts) := do
  let ⟨(place, aliasName, s), rest₁, h₁⟩ ← fieldName ts
  let ⟨args, rest₂, h₂⟩ ← arguments rest₁
  let ds ← directives rest₂
  return ((ds.map fun ds => ⟨place, aliasName, s, args, ds⟩).afterSome h₂).after h₁

/-- The beginning of a fragment that is used in place. -/
structure FragmentHead where
  position : Position
  typeCondition : Option String
  directives : List Directive

/-- The inline fragment with the given selection set. -/
def FragmentHead.toInline (head : FragmentHead) (selectionSet : SelectionSet) : InlineFragment :=
  ⟨head.position, head.typeCondition, head.directives, selectionSet⟩

/-- Reads, after the dots, either the spread of a named fragment or the beginning of an inline
fragment. The name `on` begins a type condition. -/
def afterDots (ts : List Token) :
    Except Refusal (Read (FragmentSpread ⊕ FragmentHead) ts) :=
  match ts with
  | [] => refuse []
  | t :: ts =>
    match t.lexeme with
    | .name "on" => do
      let ⟨(_, condition), rest₁, h₁⟩ ← name ts
      let ds ← directives rest₁
      return ((ds.map fun ds => .inr ⟨t.position, some condition, ds⟩).after h₁).behind t
    | .name s => do
      let ds ← directives ts
      return (ds.map fun ds => .inl ⟨t.position, s, ds⟩).behind t
    | .mark .atSign => do
      let ⟨first, rest₁, h₁⟩ ← directive (t :: ts)
      let others ← directives rest₁
      return (others.map fun others => .inr ⟨t.position, none, first :: others⟩).after h₁
    | _ => refuse (t :: ts)

mutual

/-- Reads a selection set. -/
def selectionSet (ts : List Token) : Except Refusal (Read SelectionSet ts) := do
  let ⟨place, rest₁, h₁⟩ ← mark .openBrace ts
  let items ← someItemsUntil .closeBrace (n := ts.length) (fun ts _ => selection ts) rest₁ h₁
  return (items.map fun (items, closing) => ⟨place, closing, items⟩).after h₁
termination_by ts.length

/-- Reads one selection. -/
def selection (ts : List Token) : Except Refusal (Read Selection ts) := do
  if nextIsMark .dots ts then
    let ⟨_, rest₁, h₁⟩ ← mark .dots ts
    if nextIsMark .openBrace rest₁ then
      let set ← selectionSet rest₁
      return (set.map fun set => .inline ⟨set.position, none, [], set⟩).after h₁
    else
      match ← afterDots rest₁ with
      | ⟨.inl spread, rest₂, h₂⟩ => return ⟨.spread spread, rest₂, Nat.lt_trans h₂ h₁⟩
      | ⟨.inr head, rest₂, h₂⟩ =>
        have h : rest₂.length < ts.length := Nat.lt_trans h₂ h₁
        let set ← selectionSet rest₂
        return (set.map fun set => .inline (head.toInline set)).after h
  else
    let ⟨head, rest₁, h₁⟩ ← fieldHead ts
    if nextIsMark .openBrace rest₁ then
      return ((← selectionSet rest₁).map fun set => .field (head.toField set)).after h₁
    else
      return ⟨.field (head.toField ⟨head.position, head.position, []⟩), rest₁, h₁⟩
termination_by ts.length

end

/-- Reads the declaration of a variable. -/
def variableDefinition (ts : List Token) : Except Refusal (Read VariableDefinition ts) := do
  let ⟨place, rest₁, h₁⟩ ← mark .dollar ts
  let ⟨(_, s), rest₂, h₂⟩ ← name rest₁
  let ⟨_, rest₃, h₃⟩ ← mark .colon rest₂
  let ⟨type, rest₄, h₄⟩ ← typeExpr rest₃
  let default ← defaultValue rest₄
  let declared := default.map fun default => (⟨place, s, type, default⟩ : VariableDefinition)
  return (((declared.after h₄).after h₃).after h₂).after h₁

/-- Reads a name if one comes next. -/
def optionalName (ts : List Token) : ReadSome (Option String) ts :=
  match ts with
  | [] => .nothing none []
  | t :: rest =>
    match t.lexeme with
    | .name s => .head (some s) t rest
    | _ => .nothing none (t :: rest)

/-- Reads an operation after its keyword, which stood at `place`. -/
def operation (place : Position) (kind : OperationKind) (ts : List Token) :
    Except Refusal (Read Definition ts) := do
  let ⟨s, rest₁, h₁⟩ := optionalName ts
  let ⟨declared, rest₂, h₂⟩ ← optionalItems .openParen .closeParen variableDefinition rest₁
  let ⟨ds, rest₃, h₃⟩ ← directives rest₂
  let set ← selectionSet rest₃
  let d := set.map fun set => Definition.operation ⟨place, kind, s, declared, ds, set⟩
  return ((d.afterSome h₃).afterSome h₂).afterSome h₁

/-- Reads a fragment definition after its keyword, which stood at `place`. -/
def fragment (place : Position) (ts : List Token) : Except Refusal (Read Definition ts) := do
  let ⟨(_, s), rest₁, h₁⟩ ← name ts
  let ⟨_, rest₂, h₂⟩ ← keyword "on" rest₁
  let ⟨(_, condition), rest₃, h₃⟩ ← name rest₂
  let ⟨ds, rest₄, h₄⟩ ← directives rest₃
  let set ← selectionSet rest₄
  let d := set.map fun set => Definition.fragment ⟨place, s, condition, ds, set⟩
  return (((d.afterSome h₄).after h₃).after h₂).after h₁

/-- Reads a definition of an executable document. -/
def definition (ts : List Token) : Except Refusal (Read Definition ts) :=
  match ts with
  | [] => refuse []
  | t :: rest =>
    match t.lexeme with
    | .name "query" => return (← operation t.position .query rest).behind t
    | .name "mutation" => return (← operation t.position .mutation rest).behind t
    | .name "subscription" => return (← operation t.position .subscription rest).behind t
    | .name "fragment" => return (← fragment t.position rest).behind t
    | _ => do
      let set ← selectionSet (t :: rest)
      return set.map fun set => .operation ⟨set.position, .query, none, [], [], set⟩

end Reading

/-- Reads a text as an executable document, or returns the place where it is none. -/
def Document.read (text : String) : Except Position Document :=
  (Reading.wholeText Reading.definition text).map Document.mk

end GraphQLCheck
