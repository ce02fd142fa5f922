import CodecDocs.Registry.Basic

/-! The combinators of `io-ts`, `io-ts-types` and `@api-ts/io-ts-http`. -/

namespace CodecDocs.Registry

open Schema in
/-- Codecs, containers and compositions. -/
def coreRules : List (String × Rule) :=
  [("string", .fixed (ofPrimitive .string)),
    ("number", .fixed (ofPrimitive .number)),
    ("bigint", .fixed (ofPrimitive .integer)),
    ("Int", .fixed (ofPrimitive .integer)),
    ("boolean", .fixed (ofPrimitive .boolean)),
    ("null", .fixed (ofPrimitive .null)),
    ("nullType", .fixed (ofPrimitive .null)),
    ("undefined", .fixed (.undefined .none)),
    ("void", .fixed (.undefined .none)),
    ("unknown", .fixed (.any .none)),
    ("any", .fixed (.any .none)),
    ("UnknownRecord", .fixed (.record (some (ofPrimitive .string)) (.any .none) .none)),
    ("UnknownArray", .fixed (.array (.any .none) .none)),
    ("type", .allRequired "type"),
    ("strict", .allRequired "strict"),
    ("partial", .noneRequired "partial"),
    ("exact", .first "exact"),
    ("readonly", .first "readonly"),
    ("array", .array "array"),
    ("readonlyArray", .array "readonlyArray"),
    ("record", .record),
    ("tuple", .tuple),
    ("union", .union),
    ("intersection", .intersection),
    ("literal", .literal),
    ("keyof", .keys),
    ("brand", .first "brand")]

open Schema in
/-- Richer values behind strings and numbers; each has a package of its own beside the common
one. -/
def typeRules : List (String × Rule) :=
  let formatted (kind : Primitive) (format : String) : Rule :=
    .fixed ((ofPrimitive kind).annotated "format" (.string format))
  [("NumberFromString", formatted .string "number"),
    ("BigIntFromString", formatted .string "number"),
    ("IntFromString", formatted .string "integer"),
    ("BooleanFromString", .fixed (enumeration .string [.string "true", .string "false"])),
    ("DateFromISOString", formatted .string "date-time"),
    ("DateFromNumber", formatted .number "number"),
    ("DateFromUnixTime", formatted .number "number"),
    ("NonEmptyString", .fixed ((ofPrimitive .string).annotated "minLength" (.nat 1))),
    ("UUID", formatted .string "uuid"),
    ("JsonFromString", .fixed (ofPrimitive .string)),
    ("nonEmptyArray", .nonEmptyArray "nonEmptyArray"),
    ("fromNullable", .either "fromNullable" (ofPrimitive .null)),
    ("withFallback", .first "withFallback")]

/-- Optional properties, requests, routes and collections of them. -/
def httpRules : List (String × Rule) :=
  [("optional", .either "optional" (.undefined .none)),
    ("optionalize", .allRequired "optionalize"),
    ("optionalized", .allRequired "optionalized"),
    ("httpRequest", .request),
    ("httpRoute", .route),
    ("apiSpec", .noneRequired "apiSpec")]

def registerAll (r : Registry) (package : String) (rules : List (String × Rule)) : Registry :=
  rules.foldl (fun r ⟨name, rule⟩ => r.register package name rule) r

def builtin : Registry :=
  let types := (empty.registerAll "io-ts" coreRules).registerAll "io-ts-types" typeRules
  let single := typeRules.foldl
    (fun r ⟨name, rule⟩ => r.register ("io-ts-types/lib/" ++ name) name rule) types
  single.registerAll "@api-ts/io-ts-http" httpRules

end CodecDocs.Registry
