import SimpleLR.Listing.Tables

namespace SimpleLR

namespace Json

/-- The value of a field of an object. -/
def field? (name : Text) : Json → Option Json
  | .object fields => fields.lookup name
  | _ => none

def items? : Json → Option (List Json)
  | .array items => some items
  | _ => none

def string? : Json → Option Text
  | .string value => some value
  | _ => none

def number? : Json → Option Nat
  | .number value => some value
  | _ => none

/-- A value or `null`. -/
def option? {α : Type} (decode : Json → Option α) : Json → Option (Option α)
  | .null => some none
  | value => (decode value).map some

/-- An array whose items are all of one kind. -/
def list? {α : Type} (decode : Json → Option α) (value : Json) : Option (List α) := do
  (← value.items?).mapM decode

section Lists

variable {α : Type} {encode : α → Json} {decode : Json → Option α}

theorem list?_array (same : ∀ value, decode (encode value) = some value) (values : List α) :
    list? decode (.array (values.map encode)) = some values := by
  change (values.map encode).mapM decode = some values
  induction values with
  | nil => rfl
  | cons value rest ih =>
    rw [List.map_cons, List.mapM_cons, same, ih]
    rfl

theorem option?_ofOption (same : ∀ value, decode (encode value) = some value)
    (filled : ∀ value, encode value ≠ .null) (value : Option α) :
    option? decode (ofOption encode value) = some value := by
  cases value with
  | none => rfl
  | some value =>
    rw [ofOption, option?]
    · rw [same]
      rfl
    · exact filled value

end Lists

end Json

/-- The action that a value stands for. -/
def Action.ofJson? (value : Json) : Option Action := do
  let kind ← (← value.field? "type").string?
  if kind = "Shift" then return .shift (← (← value.field? "target").number?)
  else if kind = "Reduce" then return .reduce (← (← value.field? "target").number?)
  else if kind = "Accept" then return .accept
  else none

theorem Action.ofJson?_json (action : Action) : ofJson? action.json = some action := by
  cases action <;> rfl

/-- The table that a value stands for. -/
def TableListing.ofJson? (value : Json) : Option TableListing := do
  return {
    terminals := ← (← value.field? "terminals").list? Json.string?
    nonTerminals := ← (← value.field? "non_terminals").list? Json.string?
    productions := ← (← value.field? "productions").list? Json.string?
    actions := ← (← value.field? "action").list? (Json.list? (Json.option? Action.ofJson?))
    gotos := ← (← value.field? "goto").list? (Json.list? (Json.option? Json.number?)) }

/-- A table can be read back from its JSON value. -/
theorem TableListing.ofJson?_json (listing : TableListing) : ofJson? listing.json = some listing := by
  have string (value : Text) : Json.string? (.string value) = some value := rfl
  have strings (values : List Text) : (Json.strings values).list? Json.string? = some values :=
    Json.list?_array string values
  have action : ∀ row, Json.list? (Json.option? Action.ofJson?)
      (.array (row.map (Json.ofOption Action.json))) = some row :=
    Json.list?_array (Json.option?_ofOption Action.ofJson?_json fun action => by cases action <;> nofun)
  have goto : ∀ row, Json.list? (Json.option? Json.number?)
      (.array (row.map (Json.ofOption .number))) = some row :=
    Json.list?_array (Json.option?_ofOption (fun _ => rfl) nofun)
  have actions := Json.list?_array action listing.actions
  have gotos := Json.list?_array goto listing.gotos
  unfold ofJson?
  have fields : listing.json.field? "terminals" = some (Json.strings listing.terminals) ∧
      listing.json.field? "non_terminals" = some (Json.strings listing.nonTerminals) ∧
      listing.json.field? "productions" = some (Json.strings listing.productions) ∧
      listing.json.field? "action" =
        some (.array (listing.actions.map fun row => .array (row.map (Json.ofOption Action.json)))) ∧
      listing.json.field? "goto" =
        some (.array (listing.gotos.map fun row => .array (row.map (Json.ofOption .number)))) :=
    ⟨rfl, rfl, rfl, rfl, rfl⟩
  obtain ⟨terminals, nonTerminals, productions, action, goto⟩ := fields
  simp only [terminals, nonTerminals, productions, action, goto, Option.bind_eq_bind, Option.bind_some,
    strings, actions, gotos]
  rfl

end SimpleLR
