import GraphQLCheck.Language.Reading.Basic
import GraphQLCheck.Language.Document

/-!
# Reading values, types and directives

The parts that executable and type system documents have in common.
-/

namespace GraphQLCheck

namespace Reading

/-- Reads a value. A constant value contains no variable. -/
def value (constant : Bool) (ts : List Token) : Except Refusal (Read Value ts) :=
  match ts with
  | [] => refuse []
  | t :: rest =>
    let leaf (v : Value) : Read Value (t :: rest) := .head v t rest
    match t.lexeme with
    | .name "true" => return leaf (.boolean true)
    | .name "false" => return leaf (.boolean false)
    | .name "null" => return leaf .null
    | .name s => return leaf (.enum s)
    | .int n => return leaf (.int n)
    | .float x => return leaf (.float x)
    | .string s => return leaf (.string s)
    | .mark .dollar =>
      if constant then refuse (t :: rest)
      else do return ((← name rest).map fun (_, s) => .variable s).behind t
    | .mark .openBracket => do
      let items ←
        itemsUntil .closeBracket (n := (t :: rest).length) (fun ts _ => value constant ts) rest
          (Nat.lt_succ_self _)
      return (items.map fun (items, _) => .list items).behind t
    | .mark .openBrace => do
      let field : ItemReader ObjectField (t :: rest).length := fun ts hts => do
        let ⟨(_, key), rest₁, h₁⟩ ← name ts
        let ⟨_, rest₂, h₂⟩ ← mark .colon rest₁
        have : rest₂.length < (t :: rest).length := Nat.lt_trans (Nat.lt_trans h₂ h₁) hts
        let v ← value constant rest₂
        return ((v.map fun v => ⟨key, v⟩).after h₂).after h₁
      let fields ← itemsUntil .closeBrace field rest (Nat.lt_succ_self _)
      return (fields.map fun (fields, _) => .ofFields fields).behind t
    | _ => refuse (t :: rest)
termination_by ts.length
decreasing_by all_goals assumption

/-- Marks a type as non-null if an exclamation mark comes next. -/
def nonNullMark {ts : List Token} (type : Read TypeExpr ts) : Read TypeExpr ts :=
  let marked := skipMark .exclamation type.rest
  (marked.map fun marked => if marked then .nonNull type.value else type.value).after type.shorter

/-- Reads a type. -/
def typeExpr (ts : List Token) : Except Refusal (Read TypeExpr ts) :=
  match ts with
  | [] => refuse []
  | t :: rest =>
    match t.lexeme with
    | .name s => return nonNullMark (.head (.named s) t rest)
    | .mark .openBracket => do
      let ⟨item, rest₁, h₁⟩ ← typeExpr rest
      let close ← mark .closeBracket rest₁
      return nonNullMark (((close.map fun _ => .list item).after h₁).behind t)
    | _ => refuse (t :: rest)
termination_by ts.length

/-- Reads an argument. -/
def argument (ts : List Token) : Except Refusal (Read Argument ts) := do
  let ⟨(_, key), rest₁, h₁⟩ ← name ts
  let ⟨_, rest₂, h₂⟩ ← mark .colon rest₁
  let v ← value false rest₂
  return ((v.map fun v => ⟨key, v⟩).after h₂).after h₁

/-- Reads the arguments in parentheses, if an opening one comes next. -/
def arguments (ts : List Token) : Except Refusal (ReadSome (List Argument) ts) :=
  optionalItems .openParen .closeParen argument ts

/-- Reads a directive. -/
def directive (ts : List Token) : Except Refusal (Read Directive ts) := do
  let ⟨place, rest₁, h₁⟩ ← mark .atSign ts
  let ⟨(_, s), rest₂, h₂⟩ ← name rest₁
  let args ← arguments rest₂
  return ((args.map fun args => ⟨place, s, args⟩).after h₂).after h₁

/-- Reads directives for as long as they come. -/
def directives (ts : List Token) : Except Refusal (ReadSome (List Directive) ts) :=
  itemsWhile .atSign directive ts

/-- Reads a default value, if an equals sign comes next. -/
def defaultValue (ts : List Token) : Except Refusal (ReadSome (Option Value) ts) := do
  match skipMark .equals ts with
  | ⟨false, _, _⟩ => return .nothing none ts
  | ⟨true, rest, h⟩ => return (((← value true rest).map some).afterSome h).toSome

end Reading

end GraphQLCheck
