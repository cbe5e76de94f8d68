import Thera.ToMathlib.OrderedAssoc
import Thera.Model.Sdk.Scan

/-! # The tables of a TOML document

How `std.toml` builds a document: the maps and lists of the document are objects that tables refer to, a header or
a dotted key walks from map to map, and a separate map keeps how each table was created, under the path it was
reached by as one string.
-/

namespace Thera.Sdk.TomlFormat

/-! ## Values -/

abbrev Key := List Char

inductive DatetimeKind where
  | offsetDateTime
  | localDateTime
  | localDate
  | localTime
  deriving DecidableEq

structure Datetime where
  kind : DatetimeKind
  text : List Char
  deriving DecidableEq

/-- The variants of `Toml` that hold no other value, with doubles in `D`. -/
inductive Scalar (D : Type) where
  | bool (b : Bool)
  | int (n : I64)
  | double (x : D)
  | str (s : List Char)
  | datetime (d : Datetime)

/-- A value as a tree. -/
inductive Toml (D : Type) where
  | scalar (s : Scalar D)
  | array (items : List (Toml D))
  | table (fields : List (Key × Toml D))

/-! ## Objects -/

/-- A value as the parser holds it: arrays and tables are references. -/
inductive Val (D : Type) where
  | scalar (s : Scalar D)
  | array (list : ℕ)
  | table (map : ℕ)

inductive Obj (D : Type) where
  | map (fields : List (Key × Val D))
  | list (items : List (Val D))

abbrev Store (D : Type) := List (Obj D)

section

variable {D : Type}

def Scalar.kind : Scalar D → String
  | bool _ => "bool"
  | int _ => "integer"
  | double _ => "float"
  | str _ => "string"
  | datetime _ => "date-time"

/-- `existing.kind()`. -/
def Val.kind : Val D → String
  | scalar s => s.kind
  | array _ => "array"
  | table _ => "table"

def sameKey (a b : Key) : Bool := decide (a = b)

def Store.fields (store : Store D) (map : ℕ) : List (Key × Val D) :=
  match store[map]? with
  | some (.map fields) => fields
  | _ => []

def Store.items (store : Store D) (list : ℕ) : List (Val D) :=
  match store[list]? with
  | some (.list items) => items
  | _ => []

/-- `map.get(key)`. -/
def Store.get (store : Store D) (map : ℕ) (key : Key) : Option (Val D) := OrderedAssoc.get sameKey (store.fields map) key

/-- `map[key] = value`. -/
def Store.setField (store : Store D) (map : ℕ) (key : Key) (value : Val D) : Store D :=
  store.set map (.map (OrderedAssoc.insert sameKey (store.fields map) key value))

/-- `list.push(value)`. -/
def Store.push (store : Store D) (list : ℕ) (value : Val D) : Store D := store.set list (.list (store.items list ++ [value]))

/-- A new object, and the store with it. -/
def Store.new (store : Store D) (obj : Obj D) : ℕ × Store D := (store.length, store ++ [obj])

mutual

/-- A value with objects of its own. -/
def Store.alloc (store : Store D) : Toml D → Val D × Store D
  | .scalar s => (.scalar s, store)
  | .array items =>
      let (items, store) := Store.allocItems store items
      let (list, store) := store.new (.list items)
      (.array list, store)
  | .table fields =>
      let (fields, store) := Store.allocFields store fields
      let (map, store) := store.new (.map fields)
      (.table map, store)

def Store.allocItems (store : Store D) : List (Toml D) → List (Val D) × Store D
  | [] => ([], store)
  | item :: rest =>
      let (item, store) := Store.alloc store item
      let (rest, store) := Store.allocItems store rest
      (item :: rest, store)

def Store.allocFields (store : Store D) : List (Key × Toml D) → List (Key × Val D) × Store D
  | [] => ([], store)
  | (key, value) :: rest =>
      let (value, store) := Store.alloc store value
      let (rest, store) := Store.allocFields store rest
      ((key, value) :: rest, store)

end

/-- The tree below a value. -/
def Store.read (store : Store D) : ℕ → Val D → Option (Toml D)
  | _, .scalar s => some (.scalar s)
  | 0, _ => none
  | fuel + 1, .array list => (store.items list).mapM (Store.read store fuel) |>.map .array
  | fuel + 1, .table map =>
      (store.fields map).mapM (fun field => (Store.read store fuel field.2).map (field.1, ·)) |>.map .table

end

/-! ## How tables were created -/

inductive TableState where
  | header
  | implicit
  | array
  | dotted (block : ℕ)
  deriving DecidableEq

abbrev States := List (Key × TableState)

def States.get (states : States) (path : Key) : Option TableState := OrderedAssoc.get sameKey states path

def States.mark (states : States) (path : Key) (state : TableState) : States := OrderedAssoc.insert sameKey states path state

/-- The separator between the segments of a path: NUL. -/
def pathSep : Key := [Char.ofNat 0]

/-- `'${walked}${path_sep}${seg}'`. -/
def extendPath (walked seg : Key) : Key := walked ++ pathSep ++ seg

/-- The pseudo-segment of an array's element. -/
def indexSegment (i : ℕ) : Key := '#' :: decimalDigits i

/-- Why building stops. -/
inductive Fault where
  | report (message : String)
  | outOfRange

abbrev Build := Except Fault

/-- The first segments of a path, dotted. -/
def renderPath (path : List Key) (last : ℕ) : String := ".".intercalate ((path.take (last + 1)).map String.ofList)

section

variable {D : Type}

/-- The map inside a table; any other value gives an empty one. -/
def tableOf (store : Store D) : Val D → ℕ × Store D
  | .table map => (map, store)
  | _ => store.new (.map [])

/-- The list inside an array; any other value gives an empty one. -/
def arrayOf (store : Store D) : Val D → ℕ × Store D
  | .array list => (list, store)
  | _ => store.new (.list [])

/-! ## Dotted keys -/

/-- Walk the segments of `path` from index `i` on, in the map `cur`, and put the value under the last. -/
def insertFrom (path : List Key) (value : Toml D) (block : ℕ) (store : Store D) (states : States) (cur : ℕ) (walked : Key)
    (i : ℕ) : List Key → Build (Store D × States)
  | [] => throw .outOfRange
  | [leaf] =>
      if (store.get cur leaf).isSome then throw (.report ("duplicate key " ++ renderPath path (path.length - 1)))
      else
        let (value, store) := store.alloc value
        return (store.setField cur leaf value, states)
  | seg :: rest =>
      let walked := extendPath walked seg
      match store.get cur seg with
      | none =>
          let (child, store) := store.new (.map [])
          insertFrom path value block (store.setField cur seg (.table child)) (states.mark walked (.dotted block)) child
            walked (i + 1) rest
      | some existing =>
          match states.get walked with
          | some state =>
              if state = .dotted block then
                let (cur, store) := tableOf store existing
                insertFrom path value block store states cur walked (i + 1) rest
              else throw (.report ("dotted keys cannot extend " ++ renderPath path i ++ ", which was defined elsewhere"))
          | none =>
              if existing.kind = "table" then throw (.report ("cannot extend inline table " ++ renderPath path i))
              else throw (.report (renderPath path i ++ " is already a " ++ existing.kind ++ ", not a table"))

/-- Insert a value at a dotted path under the block `base`, whose path is `walked`. -/
def insert (store : Store D) (states : States) (base : ℕ) (walked : Key) (block : ℕ) (path : List Key) (value : Toml D) :
    Build (Store D × States) :=
  insertFrom path value block store states base walked 0 path

/-! ## Headers -/

/-- Where a header points, with the objects and states it leaves. -/
structure BlockTarget (D : Type) where
  store : Store D
  states : States
  map : ℕ
  path : Key

/-- The last segment of an array header. -/
def openArray (path : List Key) (store : Store D) (states : States) (cur : ℕ) (leaf walked : Key) : Build (BlockTarget D) :=
  match store.get cur leaf with
  | none =>
      let (elem, store) := store.new (.map [])
      let (list, store) := store.new (.list [.table elem])
      return ⟨store.setField cur leaf (.array list), states.mark walked .array, elem, extendPath walked (indexSegment 0)⟩
  | some existing =>
      if states.get walked = some .array then
        let (list, store) := arrayOf store existing
        let (elem, store) := store.new (.map [])
        let store := store.push list (.table elem)
        return ⟨store, states, elem, extendPath walked (indexSegment ((store.items list).length - 1))⟩
      else throw (.report ("cannot redefine " ++ renderPath path (path.length - 1) ++ " as an array of tables"))

/-- The last segment of a table header. -/
def openTableLeaf (path : List Key) (store : Store D) (states : States) (cur : ℕ) (leaf walked : Key) : Build (BlockTarget D) :=
  let full := renderPath path (path.length - 1)
  match store.get cur leaf with
  | none =>
      let (child, store) := store.new (.map [])
      return ⟨store.setField cur leaf (.table child), states.mark walked .header, child, walked⟩
  | some existing =>
      match states.get walked with
      | some .implicit =>
          let (map, store) := tableOf store existing
          return ⟨store, states.mark walked .header, map, walked⟩
      | some .header => throw (.report ("table " ++ full ++ " is already defined"))
      | some .array => throw (.report (full ++ " is already an array of tables"))
      | some (.dotted _) => throw (.report ("cannot reopen table " ++ full ++ ", which dotted keys defined"))
      | none => throw (.report (full ++ " is already a " ++ existing.kind ++ ", not a table"))

/-- Walk the segments of a header's path from index `i` on, in the map `cur`. -/
def openFrom (path : List Key) (isArray : Bool) (store : Store D) (states : States) (cur : ℕ) (walked : Key) (i : ℕ) :
    List Key → Build (BlockTarget D)
  | [] => throw .outOfRange
  | [leaf] =>
      if isArray then openArray path store states cur leaf (extendPath walked leaf)
      else openTableLeaf path store states cur leaf (extendPath walked leaf)
  | seg :: rest =>
      let walked := extendPath walked seg
      match store.get cur seg with
      | none =>
          let (child, store) := store.new (.map [])
          openFrom path isArray (store.setField cur seg (.table child)) (states.mark walked .implicit) child walked (i + 1) rest
      | some existing =>
          match states.get walked with
          | none => throw (.report (renderPath path i ++ " is already a " ++ existing.kind ++ ", not a table"))
          | some .array =>
              let (list, store) := arrayOf store existing
              let items := store.items list
              match items.getLast? with
              | none => throw .outOfRange
              | some last =>
                  let (cur, store) := tableOf store last
                  openFrom path isArray store states cur (extendPath walked (indexSegment (items.length - 1))) (i + 1) rest
          | some _ =>
              let (cur, store) := tableOf store existing
              openFrom path isArray store states cur walked (i + 1) rest

/-- Walk a header's path and return the block it opens. -/
def openTable (store : Store D) (root : ℕ) (states : States) (path : List Key) (isArray : Bool) : Build (BlockTarget D) :=
  openFrom path isArray store states root [] 0 path

/-! ## Documents -/

/-- A line of a document: a header, or a key with its value. -/
inductive Line (V : Type) where
  | header (path : List Key) (isArray : Bool)
  | pair (path : List Key) (value : V)

/-- The document under construction, with the block that key/value lines land in. -/
structure Doc (D : Type) where
  store : Store D
  root : ℕ
  states : States
  curMap : ℕ
  curPath : Key
  block : ℕ

def Doc.empty : Doc D := ⟨[.map []], 0, [], 0, [], 0⟩

/-- What a line does to the document. -/
def Doc.add (doc : Doc D) : Line (Toml D) → Build (Doc D)
  | .header path isArray => do
      let target ← openTable doc.store doc.root doc.states path isArray
      return { doc with store := target.store, states := target.states, curMap := target.map, curPath := target.path,
                        block := doc.block + 1 }
  | .pair path value => do
      let (store, states) ← insert doc.store doc.states doc.curMap doc.curPath doc.block path value
      return { doc with store := store, states := states }

/-- The tree of the document. -/
def Doc.tree (doc : Doc D) : Option (Toml D) := doc.store.read (doc.store.length + 1) (.table doc.root)

/-- The fields of an inline table, in a store of its own. -/
structure Inline (D : Type) where
  store : Store D
  fields : ℕ
  states : States

def Inline.empty : Inline D := ⟨[.map []], 0, []⟩

def Inline.add (inline : Inline D) (path : List Key) (value : Toml D) : Build (Inline D) := do
  let (store, states) ← insert inline.store inline.states inline.fields [] 0 path value
  return { inline with store := store, states := states }

def Inline.tree (inline : Inline D) : Option (Toml D) := inline.store.read (inline.store.length + 1) (.table inline.fields)

end

end Thera.Sdk.TomlFormat
