import Federation.Name

/-!
# Type references

The type of a field, an argument or an input field: a named type under any number of list
wrappers, each level of which may be required (`!`).
-/

namespace Federation

/-- A reference to a type, such as `[Int!]!`. -/
inductive TypeRef where
  /-- A named type, required or not. -/
  | named (name : Name) (required : Bool)
  /-- A list of items, required or not. -/
  | list (item : TypeRef) (required : Bool)
deriving DecidableEq

namespace TypeRef

/-- The named type below all list wrappers. -/
def innerName : TypeRef → Name
  | named n _ => n
  | list t _ => t.innerName

/-- The reference as it is written. -/
def render : TypeRef → String
  | named n r => n.text ++ if r then "!" else ""
  | list t r => "[" ++ t.render ++ "]" ++ if r then "!" else ""

/-- The reference with its named type replaced, all wrappers kept. -/
def mapName (f : Name → Name) : TypeRef → TypeRef
  | named n r => named (f n) r
  | list t r => list (t.mapName f) r

@[simp] theorem innerName_mapName (f : Name → Name) (t : TypeRef) :
    (t.mapName f).innerName = f t.innerName := by
  induction t with
  | named n r => rfl
  | list t r ih => exact ih

@[simp] theorem mapName_id (t : TypeRef) : t.mapName (fun n => n) = t := by
  induction t with
  | named n r => rfl
  | list t r ih => simp [mapName, ih]

end TypeRef

end Federation
