import Thera.Model.Bytecode.Instr

/-! # Compiled program structures

A `Module` is the unit of execution. Its dispatch rows are private in the source and only
`set_dispatch` replaces them, together with the per-type index that dynamic dispatch consults; the
field `indexed` states that pairing, so a module whose index disagrees with its rows cannot be built.
-/

namespace Thera.Bytecode

structure Function where
  name : String
  paramCount : UInt16
  localCount : UInt16
  code : List Instr
deriving DecidableEq, Repr

/-- Field names are indexed by slot; an empty list renders the fields positionally. -/
structure TypeDef where
  name : String
  fieldCount : UInt16
  fieldNames : List String
deriving DecidableEq, Repr

def TypeDef.new (name : String) (fieldCount : UInt16) : TypeDef := ⟨name, fieldCount, []⟩

def TypeDef.named (name : String) (fieldNames : List String) : TypeDef :=
  ⟨name, .ofNat fieldNames.length, fieldNames⟩

structure EnumDef where
  ty : UInt32
  name : String
  variants : List String
deriving DecidableEq, Repr

/-- One row of the dispatch table: the function that implements `selector` for type `ty`. -/
structure DispatchEntry where
  ty : UInt32
  selector : String
  func : UInt32
deriving DecidableEq, Repr

/-- Row positions grouped by type id, each group in table order. -/
abbrev DispatchIndex := List (UInt32 × List UInt32)

/-- Append a row position to its type's group, opening the group if there is none. -/
def DispatchIndex.push (index : DispatchIndex) (ty : UInt32) (row : UInt32) : DispatchIndex :=
  match index with
  | [] => [(ty, [row])]
  | (key, rows) :: index =>
      if key = ty then (key, rows ++ [row]) :: index else (key, rows) :: DispatchIndex.push index ty row

def indexRows (rows : List DispatchEntry) : DispatchIndex :=
  rows.zipIdx.foldl (fun index (entry, i) => index.push entry.ty (.ofNat i)) []

structure Module where
  functions : List Function
  types : List TypeDef
  enums : List EnumDef
  dispatch : List DispatchEntry
  dispatchIndex : DispatchIndex
  globalCount : UInt32
  entry : Option UInt32
  init : Option UInt32
  indexed : dispatchIndex = indexRows dispatch
deriving DecidableEq

namespace Module

def withTypes (functions : List Function) (types : List TypeDef) : Module where
  functions := functions
  types := types
  enums := []
  dispatch := []
  dispatchIndex := []
  globalCount := 0
  entry := none
  init := none
  indexed := rfl

def setDispatch (m : Module) (rows : List DispatchEntry) : Module :=
  { m with dispatch := rows, dispatchIndex := indexRows rows, indexed := rfl }

def functionIndex (m : Module) (name : String) : Option ℕ := m.functions.findIdx? (·.name = name)

/-- The entry function: the recorded index, or the function named `main`. -/
def entryIndex (m : Module) : Option ℕ := m.entry.map UInt32.toNat <|> m.functionIndex "main"

/-- The initialisation thunk: the recorded index, or the function named `<init>`. -/
def initIndex (m : Module) : Option ℕ := m.init.map UInt32.toNat <|> m.functionIndex "<init>"

/-- The function implementing `selector` for type `ty`: the first of the type's rows that names it. -/
def dispatchTarget (m : Module) (ty : UInt32) (selector : String) : Option UInt32 := do
  let rows ← m.dispatchIndex.lookup ty
  rows.findSome? fun i => do
    let entry ← m.dispatch[i.toNat]?
    if entry.selector = selector then some entry.func else none

end Module

end Thera.Bytecode
