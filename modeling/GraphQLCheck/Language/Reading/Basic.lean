import GraphQLCheck.Language.Token.Scan

/-!
# Reading from tokens

A reader takes the tokens that are left and returns a value together with the tokens after it, or
refuses at the first token that cannot continue what it reads. A `Read` has used up at least one
token, so a reader that reads a nested thing by calling itself ends by the number of tokens left.
-/

namespace GraphQLCheck

/-- Why reading stopped: at a certain place, or because no token was left. -/
inductive Refusal where
  | here (place : Position)
  | exhausted

/-- A value read from the beginning of `ts`, and the tokens after it. -/
structure Read (α : Type) (ts : List Token) where
  value : α
  rest : List Token
  shorter : rest.length < ts.length

/-- A value read from the beginning of `ts` that may have used up no token. -/
structure ReadSome (α : Type) (ts : List Token) where
  value : α
  rest : List Token
  noLonger : rest.length ≤ ts.length

namespace Read

variable {α β : Type} {ts rest : List Token}

/-- The value that the first token is read as. -/
def head (value : α) (t : Token) (rest : List Token) : Read α (t :: rest) :=
  ⟨value, rest, Nat.lt_succ_self _⟩

/-- The same tokens read as another value. -/
def map (f : α → β) (r : Read α ts) : Read β ts := ⟨f r.value, r.rest, r.shorter⟩

/-- What was read after one or more tokens had been used up. -/
def after (r : Read α rest) (h : rest.length < ts.length) : Read α ts :=
  ⟨r.value, r.rest, Nat.lt_trans r.shorter h⟩

/-- What was read after some tokens, perhaps none, had been used up. -/
def afterSome (r : Read α rest) (h : rest.length ≤ ts.length) : Read α ts :=
  ⟨r.value, r.rest, Nat.lt_of_lt_of_le r.shorter h⟩

/-- What was read after the first token had been used up. -/
def behind (r : Read α rest) (t : Token) : Read α (t :: rest) :=
  ⟨r.value, r.rest, Nat.lt_succ_of_lt r.shorter⟩

/-- The same, where it does not matter that a token was used up. -/
def toSome (r : Read α ts) : ReadSome α ts := ⟨r.value, r.rest, Nat.le_of_lt r.shorter⟩

end Read

namespace ReadSome

variable {α β : Type} {ts rest : List Token}

/-- The value that the first token is read as. -/
def head (value : α) (t : Token) (rest : List Token) : ReadSome α (t :: rest) :=
  ⟨value, rest, Nat.le_succ _⟩

/-- The value that no token at all is read as. -/
def nothing (value : α) (ts : List Token) : ReadSome α ts := ⟨value, ts, Nat.le_refl _⟩

/-- The same tokens read as another value. -/
def map (f : α → β) (r : ReadSome α ts) : ReadSome β ts := ⟨f r.value, r.rest, r.noLonger⟩

/-- What was read after one or more tokens had been used up. -/
def after (r : ReadSome α rest) (h : rest.length < ts.length) : Read α ts :=
  ⟨r.value, r.rest, Nat.lt_of_le_of_lt r.noLonger h⟩

/-- What was read after some tokens, perhaps none, had been used up. -/
def afterSome (r : ReadSome α rest) (h : rest.length ≤ ts.length) : ReadSome α ts :=
  ⟨r.value, r.rest, Nat.le_trans r.noLonger h⟩

/-- What was read after the first token had been used up. -/
def behind (r : ReadSome α rest) (t : Token) : Read α (t :: rest) :=
  ⟨r.value, r.rest, Nat.lt_succ_of_le r.noLonger⟩

end ReadSome

namespace Reading

variable {α β : Type}

/-- Refuses the next token. -/
def refuse : List Token → Except Refusal α
  | [] => .error .exhausted
  | t :: _ => .error (.here t.position)

/-- Whether the next token is the mark `m`. -/
def nextIsMark (m : Mark) : List Token → Bool
  | [] => false
  | t :: _ => t.lexeme = .mark m

/-- Whether the next token is the name `s`. -/
def nextIsName (s : String) : List Token → Bool
  | [] => false
  | t :: _ => t.lexeme = .name s

/-- Reads the mark `m` and returns its place. -/
def mark (m : Mark) : (ts : List Token) → Except Refusal (Read Position ts)
  | [] => refuse []
  | t :: ts =>
    if t.lexeme = .mark m then .ok (.head t.position t ts) else refuse (t :: ts)

/-- Reads a name and returns it with its place. -/
def name : (ts : List Token) → Except Refusal (Read (Position × String) ts)
  | [] => refuse []
  | t :: ts =>
    match t.lexeme with
    | .name s => .ok (.head (t.position, s) t ts)
    | _ => refuse (t :: ts)

/-- Reads the name `s` and returns its place. -/
def keyword (s : String) : (ts : List Token) → Except Refusal (Read Position ts)
  | [] => refuse []
  | t :: ts =>
    if t.lexeme = .name s then .ok (.head t.position t ts) else refuse (t :: ts)

/-- Passes over the mark `m` if it comes next. -/
def skipMark (m : Mark) (ts : List Token) : ReadSome Bool ts :=
  match ts with
  | [] => .nothing false []
  | t :: ts => if t.lexeme = .mark m then .head true t ts else .nothing false (t :: ts)

/-- Passes over the name `s` if it comes next. -/
def skipName (s : String) (ts : List Token) : ReadSome Bool ts :=
  match ts with
  | [] => .nothing false []
  | t :: ts => if t.lexeme = .name s then .head true t ts else .nothing false (t :: ts)

/-- A reader of items that may be asked only about fewer than `n` tokens. -/
abbrev ItemReader (α : Type) (n : Nat) : Type :=
  (ts : List Token) → ts.length < n → Except Refusal (Read α ts)

/-- Reads items up to the closing mark, and returns them with its place. -/
def itemsUntil (close : Mark) {n : Nat} (item : ItemReader α n) (ts : List Token)
    (hts : ts.length < n) : Except Refusal (Read (List α × Position) ts) :=
  match nextIsMark close ts with
  | true => do
    let ⟨place, rest, h⟩ ← mark close ts
    return ⟨([], place), rest, h⟩
  | false => do
    let ⟨first, rest, h⟩ ← item ts hts
    let others ← itemsUntil close item rest (Nat.lt_trans h hts)
    return (others.map (Prod.map (first :: ·) id)).after h
termination_by ts.length

/-- Reads one or more items up to the closing mark. -/
def someItemsUntil (close : Mark) {n : Nat} (item : ItemReader α n) (ts : List Token)
    (hts : ts.length < n) : Except Refusal (Read (List α × Position) ts) := do
  let ⟨first, rest, h⟩ ← item ts hts
  let others ← itemsUntil close item rest (Nat.lt_trans h hts)
  return (others.map (Prod.map (first :: ·) id)).after h

/-- Reads one or more items between two marks if the opening one comes next. -/
def optionalItems («open» close : Mark) (item : (ts : List Token) → Except Refusal (Read α ts))
    (ts : List Token) : Except Refusal (ReadSome (List α) ts) :=
  match nextIsMark «open» ts with
  | false => return .nothing [] ts
  | true => do
    let ⟨_, rest, h⟩ ← mark «open» ts
    let items ← someItemsUntil close (n := ts.length) (fun ts _ => item ts) rest h
    return ((items.map Prod.fst).after h).toSome

/-- Reads items for as long as the mark `m` comes next. -/
def itemsWhile (m : Mark) (item : (ts : List Token) → Except Refusal (Read α ts))
    (ts : List Token) : Except Refusal (ReadSome (List α) ts) :=
  match nextIsMark m ts with
  | false => return .nothing [] ts
  | true => do
    let ⟨first, rest, h⟩ ← item ts
    let others ← itemsWhile m item rest
    return ((others.map (first :: ·)).after h).toSome
termination_by ts.length

/-- Reads the mark `m` and then an item. -/
def afterMark (m : Mark) (item : (ts : List Token) → Except Refusal (Read α ts))
    (ts : List Token) : Except Refusal (Read α ts) := do
  let ⟨_, rest, h⟩ ← mark m ts
  return (← item rest).after h

/-- Reads one or more items with the mark `m` between them, and perhaps before the first. -/
def separatedItems (m : Mark) (item : (ts : List Token) → Except Refusal (Read α ts))
    (ts : List Token) : Except Refusal (Read (List α) ts) := do
  let ⟨_, rest, h⟩ := skipMark m ts
  let ⟨first, rest', h'⟩ ← item rest
  let others ← itemsWhile m (afterMark m item) rest'
  return ((others.map (first :: ·)).after h').afterSome h

/-- Reads one or more items to the end of the tokens. -/
def allItems (item : (ts : List Token) → Except Refusal (Read α ts)) (ts : List Token) :
    Except Refusal (List α) := do
  let ⟨first, rest, _⟩ ← item ts
  if rest = [] then return [first]
  return first :: (← allItems item rest)
termination_by ts.length

/-- Reads the whole of a text as one or more items, or returns the place where reading stopped. -/
def wholeText (item : (ts : List Token) → Except Refusal (Read α ts)) (text : String) :
    Except Position (List α) :=
  let scan := Scan.ofText text
  match allItems item scan.tokens with
  | .ok items => if scan.complete then .ok items else .error scan.ending
  | .error (.here place) => .error place
  | .error .exhausted => .error scan.ending

end Reading

end GraphQLCheck
