/-!
# The introspection query

The text of the query by which a client fetches a whole schema: every type with its fields,
arguments, input fields, interfaces, enum values and possible types, and every directive with its
locations and arguments. References to types are followed through seven levels of wrapping.
-/

namespace GraphQLCheck

/-- The lines of a reference to a type: its kind and name, and within it the type it wraps, down
to `depth` levels of wrapping. -/
def typeReferenceLines (indent : String) : Nat → List String
  | 0 => [indent ++ "kind", indent ++ "name"]
  | depth + 1 =>
    [indent ++ "kind", indent ++ "name", indent ++ "ofType \x7b"] ++
      typeReferenceLines (indent ++ "  ") depth ++ [indent ++ "\x7d"]

/-- The lines of the introspection query. -/
def introspectionQueryLines : List String :=
  ["query IntrospectionQuery \x7b",
    "  __schema \x7b",
    "    description",
    "    queryType \x7b name \x7d",
    "    mutationType \x7b name \x7d",
    "    subscriptionType \x7b name \x7d",
    "    types \x7b",
    "      ...FullType",
    "    \x7d",
    "    directives \x7b",
    "      name",
    "      description",
    "      isRepeatable",
    "      locations",
    "      args \x7b",
    "        ...InputValue",
    "      \x7d",
    "    \x7d",
    "  \x7d",
    "\x7d",
    "",
    "fragment FullType on __Type \x7b",
    "  kind",
    "  name",
    "  description",
    "  specifiedByURL",
    "  fields(includeDeprecated: true) \x7b",
    "    name",
    "    description",
    "    args \x7b",
    "      ...InputValue",
    "    \x7d",
    "    type \x7b",
    "      ...TypeRef",
    "    \x7d",
    "    isDeprecated",
    "    deprecationReason",
    "  \x7d",
    "  inputFields \x7b",
    "    ...InputValue",
    "  \x7d",
    "  interfaces \x7b",
    "    ...TypeRef",
    "  \x7d",
    "  enumValues(includeDeprecated: true) \x7b",
    "    name",
    "    description",
    "    isDeprecated",
    "    deprecationReason",
    "  \x7d",
    "  possibleTypes \x7b",
    "    ...TypeRef",
    "  \x7d",
    "\x7d",
    "",
    "fragment InputValue on __InputValue \x7b",
    "  name",
    "  description",
    "  type \x7b ...TypeRef \x7d",
    "  defaultValue",
    "\x7d",
    "",
    "fragment TypeRef on __Type \x7b"] ++ typeReferenceLines "  " 7 ++ ["\x7d"]

/-- The introspection query, with an empty line before it and a line break after it. -/
def introspectionQuery : String := "\n" ++ String.intercalate "\n" introspectionQueryLines ++ "\n"

end GraphQLCheck
