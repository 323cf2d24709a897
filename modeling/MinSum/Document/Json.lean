import MinSum.Document.Token

/-! Documents in JSON. -/
namespace MinSum.Document

/-- A list or fields that are still open, with the parts read before, the last one first. -/
inductive Frame where
  | list (before : List Document)
  | fields (before : List (String × Document))
  /-- Fields of which the next one has got its name, but no content. -/
  | named (before : List (String × Document)) (name : String)

structure Stack where
  frames : List Frame := []
  value : Option Document := none

/-- Adds a field. It takes the place of an earlier one with its name. -/
def addField (name : String) (d : Document) (before : List (String × Document)) :
    List (String × Document) :=
  (name, d) :: before.filter (·.1 ≠ name)

def Stack.step : Stack → Token → Option Stack
  | ⟨frames, none⟩, .scalar d => some ⟨frames, some d⟩
  | ⟨frames, none⟩, .openList => some ⟨.list [] :: frames, none⟩
  | ⟨frames, none⟩, .openFields => some ⟨.fields [] :: frames, none⟩
  | ⟨.list before :: frames, some d⟩, .comma => some ⟨.list (d :: before) :: frames, none⟩
  | ⟨.list before :: frames, some d⟩, .closeList =>
    some ⟨frames, some (list (d :: before).reverse)⟩
  | ⟨.list [] :: frames, none⟩, .closeList => some ⟨frames, some (list [])⟩
  | ⟨.fields before :: frames, some (text name)⟩, .colon =>
    some ⟨.named before name :: frames, none⟩
  | ⟨.named before name :: frames, some d⟩, .comma =>
    some ⟨.fields (addField name d before) :: frames, none⟩
  | ⟨.named before name :: frames, some d⟩, .closeFields =>
    some ⟨frames, some (fields (addField name d before).reverse)⟩
  | ⟨.fields [] :: frames, none⟩, .closeFields => some ⟨frames, some (fields [])⟩
  | _, _ => none

/-- The document that a text holds, with nothing else around it. -/
def ofJson? (s : String) : Option Document := do
  let tokens ← Token.scan? s
  match ← tokens.foldlM Stack.step {} with
  | ⟨[], value⟩ => value
  | _ => none

end MinSum.Document
