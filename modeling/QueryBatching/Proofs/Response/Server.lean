/-
A server that answers operations.

A server is a resolver.  For a node, a field's name and its arguments it gives what the field is
there: nothing, a scalar, another node, or a list of such things.  Executing a selection set on a
node gives an object with one member for each response key, and the fields of one key have what
they select below taken together.

Variables are gone before the resolver is asked.  One that is supplied has the supplied value,
and otherwise its declared default.  Only plain fields are executed: a server that knows
fragments or directives does more than is modelled here, and the same for selections without.
-/
import QueryBatching.Json.Basic
import QueryBatching.Proofs.Merge.Merged

namespace QueryBatching

universe u

/-! ### Arguments -/

/-- The value of an argument as a resolver gets it. -/
inductive Input where
  /-- The value that was supplied for a variable. -/
  | supplied (value : Json)
  /-- A variable without a value. -/
  | absent
  | int (text : String)
  | float (text : String)
  | string (text : String)
  | bool (value : Bool)
  | null
  | enum (name : String)
  | list (items : List Input)
  | object (fields : List (String × Input))
deriving Inhabited

namespace Value

mutual

/-- The value with its variables replaced. -/
def substitute (env : String → Input) : Value → Input
  | .var name => env name
  | .int text => .int text
  | .float text => .float text
  | .string text => .string text
  | .bool value => .bool value
  | .null => .null
  | .enum name => .enum name
  | .list items => .list (substituteItems env items)
  | .object fields => .object (substituteFields env fields)

/-- The items of a list with their variables replaced. -/
def substituteItems (env : String → Input) : List Value → List Input
  | [] => []
  | item :: rest => substitute env item :: substituteItems env rest

/-- The fields of an object with their variables replaced. -/
def substituteFields (env : String → Input) : List (String × Value) → List (String × Input)
  | [] => []
  | (name, value) :: rest => (name, substitute env value) :: substituteFields env rest

end

mutual

/-- Whether a value refers to no variable. -/
def isConstant : Value → Bool
  | .var _ => false
  | .list items => itemsConstant items
  | .object fields => fieldsConstant fields
  | _ => true

/-- Whether no item of a list refers to a variable. -/
def itemsConstant : List Value → Bool
  | [] => true
  | item :: rest => isConstant item && itemsConstant rest

/-- Whether no field of an object refers to a variable. -/
def fieldsConstant : List (String × Value) → Bool
  | [] => true
  | (_, value) :: rest => isConstant value && fieldsConstant rest

end

theorem substituteItems_eq (env : String → Input) (items : List Value) :
    substituteItems env items = items.map (substitute env) := by
  induction items with
  | nil => rfl
  | cons item rest ih => rw [substituteItems, ih, List.map_cons]

theorem substituteFields_eq (env : String → Input) (fields : List (String × Value)) :
    substituteFields env fields = fields.map fun field => (field.1, field.2.substitute env) := by
  induction fields with
  | nil => rfl
  | cons field rest ih => rw [substituteFields, ih, List.map_cons]

theorem itemsConstant_iff {items : List Value} :
    itemsConstant items = true ↔ ∀ item ∈ items, item.isConstant = true := by
  induction items with
  | nil => simp [itemsConstant]
  | cons item rest ih => rw [itemsConstant, Bool.and_eq_true, ih, List.forall_mem_cons]

theorem fieldsConstant_iff {fields : List (String × Value)} :
    fieldsConstant fields = true ↔ ∀ field ∈ fields, field.2.isConstant = true := by
  induction fields with
  | nil => simp [fieldsConstant]
  | cons field rest ih => rw [fieldsConstant, Bool.and_eq_true, ih, List.forall_mem_cons]

end Value

/-- The values of an operation's variables: what is supplied, else the declared default. -/
def Operation.environment (operation : Operation) (values : List (String × Json))
    (name : String) : Input :=
  let supplied? := fun name => (Assoc.get? values name).map Input.supplied
  match supplied? name with
  | some value => value
  | none =>
    match (operation.declarations.find? fun definition => definition.name = name).bind
        VariableDefinition.default? with
    | some value => value.substitute fun name => (supplied? name).getD .absent
    | none => .absent

/-! ### Resolvers -/

/-- What a field is at a node. -/
inductive Resolved (Node : Type u) where
  | null
  | bool (value : Bool)
  | number (text : String)
  | string (text : String)
  | node (node : Node)
  | list (items : List (Resolved Node))

namespace Resolved

variable {Node : Type u}

mutual

/-- The response to a field, where `answer` gives the members that are asked for at a node. -/
def complete (answer : Node → List (String × Json)) : Resolved Node → Json
  | .null => .null
  | .bool value => .bool value
  | .number text => .number text
  | .string text => .string text
  | .node target => .object (answer target)
  | .list items => .array (completeAll answer items)

/-- The responses to the items of a list. -/
def completeAll (answer : Node → List (String × Json)) : List (Resolved Node) → List Json
  | [] => []
  | item :: rest => complete answer item :: completeAll answer rest

end

end Resolved

/-- A server: where each kind of operation starts, and what the fields of its nodes are. -/
structure Server (Node : Type u) where
  root : OperationKind → Node
  resolve : Node → (name : String) → (arguments : List (String × Input)) → Resolved Node

/-! ### Selections by response key -/

namespace Selection

/-- The response key of a field. -/
def key? : Selection → Option String
  | .field head _ => some head.responseKey
  | _ => none

/-- The response keys of the fields, each once, in order of first appearance. -/
def responseKeys (selections : List Selection) : List String :=
  (selections.filterMap key?).eraseDups

/-- The field and what it selects below, if it has that response key. -/
def under? (key : String) : Selection → Option (Field × List Selection)
  | .field head nested? => if head.responseKey = key then some (head, nested?.getD []) else none
  | _ => none

/-- The fields of a response key, each with what it selects below. -/
def fieldsUnder (selections : List Selection) (key : String) : List (Field × List Selection) :=
  selections.filterMap (under? key)

/-- What the fields of a response key select below, one after another. -/
def selectionsUnder (selections : List Selection) (key : String) : List Selection :=
  (fieldsUnder selections key).flatMap Prod.snd

end Selection

/-! ### Execution -/

namespace Server

open Selection (fieldsUnder responseKeys selectionsUnder)

variable {Node : Type u}

/-- The value of a response key at a node: the first field of the key says what is resolved. -/
def fieldValue (server : Server Node) (env : String → Input) (node : Node)
    (answer : Node → List (String × Json)) : List (Field × List Selection) → Json
  | [] => .null
  | (head, _) :: _ =>
    (server.resolve node head.name
      (head.arguments.map fun argument => (argument.name, argument.value.substitute env))).complete
      answer

/-- The members of a selection set at a node, through at most so many levels. -/
def executeWithin (server : Server Node) (env : String → Input) :
    (depth : Nat) → List Selection → Node → List (String × Json)
  | 0, _, _ => []
  | depth + 1, selections, node =>
    (responseKeys selections).map fun key =>
      (key, server.fieldValue env node
        (executeWithin server env depth (selectionsUnder selections key))
        (fieldsUnder selections key))

/-- The members of a selection set at a node. -/
def execute (server : Server Node) (env : String → Input) (selections : List Selection)
    (node : Node) : List (String × Json) :=
  server.executeWithin env (Selection.depthOfAll selections) selections node

/-- The response to an operation with some values for its variables. -/
def respond (server : Server Node) (operation : Operation) (values : List (String × Json)) :
    Json :=
  .object (server.execute (operation.environment values) operation.selections
    (server.root operation.kind))

end Server

/-! ### Levels of selections -/

namespace Selection

theorem mem_fieldsUnder {selections : List Selection} {key : String}
    {found : Field × List Selection} :
    found ∈ fieldsUnder selections key ↔
      ∃ head nested?, .field head nested? ∈ selections ∧ head.responseKey = key ∧
        found = (head, nested?.getD []) := by
  unfold fieldsUnder
  rw [List.mem_filterMap]
  constructor
  · rintro ⟨field, hfield, hunder⟩
    cases field with
    | field head nested? =>
        rw [under?] at hunder
        split at hunder
        · rename_i hkey
          exact ⟨head, nested?, hfield, hkey, (Option.some.inj hunder).symm⟩
        · simp at hunder
    | spread name directives => simp [under?] at hunder
    | inlineFragment condition? directives nested => simp [under?] at hunder
  · rintro ⟨head, nested?, hfield, rfl, rfl⟩
    exact ⟨_, hfield, if_pos rfl⟩

theorem mem_selectionsUnder {selections : List Selection} {key : String} {selection : Selection} :
    selection ∈ selectionsUnder selections key ↔
      ∃ head nested, .field head (some nested) ∈ selections ∧ head.responseKey = key ∧
        selection ∈ nested := by
  unfold selectionsUnder
  rw [List.mem_flatMap]
  constructor
  · rintro ⟨found, hfound, hselection⟩
    obtain ⟨head, nested?, hfield, hkey, rfl⟩ := mem_fieldsUnder.mp hfound
    cases nested? with
    | none => exact absurd hselection List.not_mem_nil
    | some nested => exact ⟨head, nested, hfield, hkey, hselection⟩
  · rintro ⟨head, nested, hfield, hkey, hselection⟩
    exact ⟨(head, nested), mem_fieldsUnder.mpr ⟨head, some nested, hfield, hkey, rfl⟩, hselection⟩

theorem mem_responseKeys {selections : List Selection} {key : String} :
    key ∈ responseKeys selections ↔
      ∃ head nested?, .field head nested? ∈ selections ∧ head.responseKey = key := by
  unfold responseKeys
  rw [List.mem_eraseDups, List.mem_filterMap]
  constructor
  · rintro ⟨field, hfield, hkey⟩
    cases field with
    | field head nested? => exact ⟨head, nested?, hfield, Option.some.inj hkey⟩
    | spread name directives => simp [key?] at hkey
    | inlineFragment condition? directives nested => simp [key?] at hkey
  · rintro ⟨head, nested?, hfield, rfl⟩
    exact ⟨_, hfield, rfl⟩

/-- What is selected below a response key has fewer levels. -/
theorem depthOfAll_selectionsUnder {selections : List Selection} {key : String} {depth : Nat}
    (h : depthOfAll selections ≤ depth + 1) :
    depthOfAll (selectionsUnder selections key) ≤ depth := by
  rw [depthOfAll_le]
  intro selection hmem
  obtain ⟨head, nested, hfield, -, hselection⟩ := mem_selectionsUnder.mp hmem
  have hhere := depthOfAll_le.mp h _ hfield
  have hbelow := depth_le_depthOfAll hselection
  rw [Selection.depth] at hhere
  omega

end Selection

namespace Server

open Selection (depthOfAll fieldsUnder responseKeys selectionsUnder)

variable {Node : Type u} (server : Server Node) (env : String → Input)

theorem executeWithin_nil (depth : Nat) : server.executeWithin env depth [] = fun _ => [] := by
  cases depth <;> rfl

/-- As many levels as there are give the same as more. -/
theorem executeWithin_eq {selections : List Selection} {depth more : Nat}
    (h : depthOfAll selections ≤ depth) (hmore : depthOfAll selections ≤ more) :
    server.executeWithin env depth selections = server.executeWithin env more selections := by
  induction depth generalizing more selections with
  | zero =>
      obtain rfl := Selection.eq_nil_of_depthOfAll (Nat.le_zero.mp h)
      rw [executeWithin_nil, executeWithin_nil]
  | succ depth ih =>
      cases more with
      | zero =>
          obtain rfl := Selection.eq_nil_of_depthOfAll (Nat.le_zero.mp hmore)
          rw [executeWithin_nil, executeWithin_nil]
      | succ more =>
          funext node
          rw [executeWithin, executeWithin]
          refine List.map_congr_left fun key _ => ?_
          rw [ih (Selection.depthOfAll_selectionsUnder h)
            (Selection.depthOfAll_selectionsUnder hmore)]

/-- **What a selection set gives**: a member for each response key, with what is selected below
the key executed on the nodes there. -/
theorem execute_eq (selections : List Selection) (node : Node) :
    server.execute env selections node = (responseKeys selections).map fun key =>
      (key, server.fieldValue env node (server.execute env (selectionsUnder selections key))
        (fieldsUnder selections key)) := by
  have hmore : server.execute env selections =
      server.executeWithin env (depthOfAll selections + 1) selections :=
    server.executeWithin_eq env le_rfl (Nat.le_succ _)
  rw [hmore, executeWithin]
  refine List.map_congr_left fun key _ => ?_
  have hbelow : server.executeWithin env (depthOfAll selections) (selectionsUnder selections key) =
      server.execute env (selectionsUnder selections key) :=
    server.executeWithin_eq env (Selection.depthOfAll_selectionsUnder (Nat.le_succ _)) le_rfl
  rw [hbelow]

/-- Induction over selection sets, from what is selected below each response key. -/
theorem induction {P : List Selection → Prop}
    (step : ∀ selections, (∀ key ∈ responseKeys selections, P (selectionsUnder selections key)) →
      P selections) (selections : List Selection) : P selections := by
  have hall : ∀ depth selections, depthOfAll selections ≤ depth → P selections := by
    intro depth
    induction depth with
    | zero =>
        intro selections h
        obtain rfl := Selection.eq_nil_of_depthOfAll (Nat.le_zero.mp h)
        exact step [] fun key hkey => absurd hkey List.not_mem_nil
    | succ depth ih =>
        exact fun selections h => step selections fun key _ =>
          ih _ (Selection.depthOfAll_selectionsUnder h)
  exact hall _ selections le_rfl

end Server

end QueryBatching
