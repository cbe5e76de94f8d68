import Thera.Model.Element.Types

/-! # The resolver

The passes that build the library from the declarations of types, interfaces and `impl`s: skeletons, members,
and the closure of what an interface extends. Declarations come with the names they write resolved in the scope
of their file. The source's elements are shared objects; here an element is stored by value in the table of its
file and in the flat registry, and a change reaches both.
-/

namespace Thera.Element

open Thera.Compiler

/-! ## Declarations -/

structure InterfaceDecl where
  name : String
  typeParams : List String
  superInterfaces : List TypeId
  /-- Each method with whether it has a body. -/
  methods : List (FunctionElement × Bool)

structure ImplDecl where
  typeParams : List String
  target : TypeId
  /-- The interface and its arguments, for an `impl … for`. -/
  interface : Option (TypeId × List Ty)
  methods : List FunctionElement

inductive TypeLevelDecl where
  | type (name : String) (typeParams : List String) (isNative : Bool)
  | enum (name : String) (typeParams : List String)
  | interface (decl : InterfaceDecl)
  | impl (decl : ImplDecl)

structure SourceProgram where
  file : String
  decls : List TypeLevelDecl

/-! ## The built-in floor -/

def emptyDef (owner name : String) (kind : TypeDefKind) (typeParameters : List String) : TypeDefElement where
  name := name
  ownerFile := owner
  kind := kind
  typeParameters := typeParameters
  methods := []
  interfaces := []
  interfaceArgs := []
  superInterfaces := []
  ownMethods := []
  defaultMethods := []

def newStruct (owner name : String) (tps : List String) : TypeDefElement := emptyDef owner name .struct tps

def newEnum (owner name : String) (tps : List String) : TypeDefElement := emptyDef owner name .enum tps

def newInterface (owner name : String) (tps : List String) : TypeDefElement := emptyDef owner name .interface tps

def newBuiltin (owner name : String) (tps : List String) : TypeDefElement := emptyDef owner name .builtin tps

/-- A primitive, which declares `Display` and `Ord`. -/
def builtinDisplayable (name : String) : TypeDefElement :=
  { newBuiltin builtinOwner name [] with interfaces := [⟨builtinOwner, "Display"⟩, ⟨builtinOwner, "Ord"⟩] }

def builtinTypeDefs : Table String TypeDefElement :=
  [("String", builtinDisplayable "String"), ("Int", builtinDisplayable "Int"), ("Bool", builtinDisplayable "Bool"),
    ("Double", builtinDisplayable "Double"), ("List", newBuiltin builtinOwner "List" ["T"]),
    ("Set", newBuiltin builtinOwner "Set" ["T"]), ("Map", newBuiltin builtinOwner "Map" ["K", "V"]),
    ("Result", newBuiltin builtinOwner "Result" ["T", "E"]), ("Option", newBuiltin builtinOwner "Option" ["T"]),
    ("Bytes", newBuiltin builtinOwner "Bytes" []), ("BytesBuilder", newBuiltin builtinOwner "BytesBuilder" []),
    ("Error", newBuiltin builtinOwner "Error" []), ("Args", newBuiltin builtinOwner "Args" []),
    ("Display", newInterface builtinOwner "Display" []), ("Eq", newInterface builtinOwner "Eq" []),
    ("Debug", newInterface builtinOwner "Debug" []), ("Ord", newInterface builtinOwner "Ord" [])]

def isReservedTypeName (name : String) : Bool :=
  name ∈ ["Result", "Option", "Ordering", "List", "Map", "Set", "String", "Int", "Bool", "Double", "Bytes", "Iterator",
    "Error", "SourceLoc", "Void", "Eq", "Ord", "Display", "Debug"]

/-! ## Skeletons -/

/-- A reserved name stays with the file that first registered it. -/
def recordFlatType (typeDefs : Table String TypeDefElement) (name : String) (el : TypeDefElement) :
    Table String TypeDefElement :=
  match if isReservedTypeName name then typeDefs.get name else none with
  | some existing =>
      if existing.ownerFile ≠ builtinOwner ∧ existing.ownerFile ≠ el.ownerFile then typeDefs else typeDefs.set name el
  | none => typeDefs.set name el

def skeleton (file : String) : TypeLevelDecl → Option TypeDefElement
  | .type name tps isNative => some (if isNative then newBuiltin file name tps else newStruct file name tps)
  | .enum name tps => some (newEnum file name tps)
  | .interface decl => some (newInterface file decl.name decl.typeParams)
  | .impl _ => none

def registerSkeletons (lib : LibraryElement) (p : SourceProgram) : LibraryElement :=
  p.decls.foldl (fun lib decl =>
    match skeleton p.file decl with
    | some el =>
        { typeDefs := recordFlatType lib.typeDefs el.name el
          fileTypeDefs := lib.fileTypeDefs.setIn p.file el.name el }
    | none => lib) lib

/-! ## Members -/

/-- Change the element an identity names, wherever it is stored. -/
def modifyDef (lib : LibraryElement) (id : TypeId) (change : TypeDefElement → TypeDefElement) : LibraryElement :=
  let typeDefs := match lib.typeDefs.get id.name with
    | some el => if el.ownerFile = id.owner then lib.typeDefs.set id.name (change el) else lib.typeDefs
    | none => lib.typeDefs
  let fileTypeDefs := match lib.fileTypeDefs.getIn id.owner id.name with
    | some el => lib.fileTypeDefs.setIn id.owner id.name (change el)
    | none => lib.fileTypeDefs
  { typeDefs, fileTypeDefs }

def resolveInterface (decl : InterfaceDecl) (element : TypeDefElement) : TypeDefElement :=
  { element with
    superInterfaces := element.superInterfaces ++ decl.superInterfaces
    ownMethods := element.ownMethods ++ decl.methods.map (·.1.name)
    defaultMethods := element.defaultMethods ++ (decl.methods.filter (·.2)).map (·.1.name)
    methods := element.methods ++ decl.methods.map (·.1) }

/-- An `impl` adds its methods to its target, and the interface with the arguments it is implemented at. -/
def resolveImpl (decl : ImplDecl) (owner : TypeDefElement) : TypeDefElement :=
  let owner := match decl.interface with
    | some (iface, args) =>
        { owner with
          interfaces := if implementsInterface owner iface then owner.interfaces else owner.interfaces ++ [iface]
          interfaceArgs := owner.interfaceArgs.set (idKey iface) args }
    | none => owner
  { owner with methods := owner.methods ++ decl.methods }

def resolveMembers (lib : LibraryElement) (p : SourceProgram) : LibraryElement :=
  p.decls.foldl (fun lib decl =>
    match decl with
    | .interface x => modifyDef lib ⟨p.file, x.name⟩ (resolveInterface x)
    | .impl x => modifyDef lib x.target (resolveImpl x)
    | .type .. | .enum .. => lib) lib

/-! ## What an interface extends -/

/-- Copy the methods of a super-interface that the interface does not declare. -/
def inheritMethods (superDef : TypeDefElement) (element : TypeDefElement) : TypeDefElement :=
  superDef.methods.foldl (fun element m =>
    match findMethod element m.name with
    | some _ => element
    | none =>
        { element with
          methods := element.methods ++ [m]
          defaultMethods :=
            if isDefaultMethod superDef m.name then element.defaultMethods ++ [m.name] else element.defaultMethods })
    element

/-- Walk the super-interfaces breadth first. Each identity's own supers join the queue once, so `fuel` bounds the
walk when it is at least the number of super-interfaces written in the library. -/
def closureWalk (lib : LibraryElement) (ownId : TypeId) :
    ℕ → List TypeId → List TypeId → TypeDefElement → List TypeId × TypeDefElement
  | 0, _, closure, element => (closure, element)
  | _ + 1, [], closure, element => (closure, element)
  | fuel + 1, sid :: queue, closure, element =>
      if sid = ownId ∨ sid ∈ closure then closureWalk lib ownId fuel queue closure element
      else match defById lib sid with
        | some superDef =>
            if superDef.kind = .interface then
              closureWalk lib ownId fuel (queue ++ superDef.superInterfaces) (closure ++ [sid])
                (inheritMethods superDef element)
            else closureWalk lib ownId fuel queue (closure ++ [sid]) element
        | none => closureWalk lib ownId fuel queue (closure ++ [sid]) element

def superCount (lib : LibraryElement) : ℕ :=
  ((lib.typeDefs.map fun entry => entry.2.superInterfaces.length).sum +
    (lib.fileTypeDefs.map fun file => (file.2.map fun entry => entry.2.superInterfaces.length).sum).sum)

def flattenInterfaceClosure (lib : LibraryElement) (element : TypeDefElement) : TypeDefElement :=
  let (closure, element) := closureWalk lib ⟨element.ownerFile, element.name⟩
    (element.superInterfaces.length + superCount lib + 1) element.superInterfaces [] element
  { element with superInterfaces := closure }

def flattenOwnerInterfaces (lib : LibraryElement) (owner : String) : LibraryElement :=
  match lib.fileTypeDefs.get owner with
  | some defs =>
      defs.foldl (fun lib entry =>
        match defById lib ⟨owner, entry.1⟩ with
        | some d => if d.kind = .interface then modifyDef lib ⟨owner, entry.1⟩ fun _ => flattenInterfaceClosure lib d else lib
        | none => lib) lib
  | none => lib

/-- The library of a program with its imports, dependencies first. -/
def buildLibrary (programs : List SourceProgram) : LibraryElement :=
  let lib := programs.foldl registerSkeletons ⟨builtinTypeDefs, []⟩
  let lib := programs.foldl resolveMembers lib
  lib.fileTypeDefs.keys.foldl flattenOwnerInterfaces lib

end Thera.Element
