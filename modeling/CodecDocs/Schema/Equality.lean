import CodecDocs.Schema.Basic

/-! Equality of schemas. The order of properties, of required names and of annotations does not
count; the order of members and of enumerated values does. -/

namespace CodecDocs.Schema

/-- Whether two enumerations list the same values in the same order. -/
def sameValues : List Literal → List Literal → Bool
  | [], [] => true
  | v :: vs, w :: ws => v.same w && sameValues vs ws
  | _, _ => false

def sameEnum : Option (List Literal) → Option (List Literal) → Bool
  | none, none => true
  | some vs, some ws => sameValues vs ws
  | _, _ => false

mutual

def same : Schema → Schema → Bool
  | .primitive k vs n, .primitive l ws m => k == l && sameEnum vs ws && n.same m
  | .array s n, .array t m => s.same t && n.same m
  | .object ps rs n, .object qs ss m =>
    ps.length == qs.length && sameFields ps qs && Names.same rs ss && n.same m
  | .record none c n, .record none d m => c.same d && n.same m
  | .record (some a) c n, .record (some b) d m => a.same b && c.same d && n.same m
  | .union ss n, .union ts m => sameMembers ss ts && n.same m
  | .intersection ss n, .intersection ts m => sameMembers ss ts && n.same m
  | .tuple ss n, .tuple ts m => sameMembers ss ts && n.same m
  | .reference x o n, .reference y p m => x == y && o == p && n.same m
  | .any n, .any m => n.same m
  | .undefined n, .undefined m => n.same m
  | _, _ => false

def sameMembers : List Schema → List Schema → Bool
  | [], [] => true
  | s :: ss, t :: ts => s.same t && sameMembers ss ts
  | _, _ => false

/-- Whether each property has an equal one of the same name among `others`. -/
def sameFields : List (String × Schema) → List (String × Schema) → Bool
  | [], _ => true
  | (k, s) :: fields, others =>
    (match Table.get? others k with
      | some t => s.same t
      | none => false) && sameFields fields others

end

end CodecDocs.Schema
