import Thera.Model.Compiler.Element

/-! # The public surface of a library

What an `import` makes visible: the public names of the imported library and of what it re-exports. The loader
keeps one source per file and its import maps hold references to sources; here a reference is the source's number.
-/

namespace Thera.Loader

open Compiler (fileKey)

/-- A top-level declaration, as far as the surface reads it. -/
inductive Decl where
  | fn (name : String) (isPub : Bool)
  | type (name : String) (isPub : Bool)
  | enum (name : String) (isPub : Bool)
  | const (name : String) (isPub : Bool)
  | let (name : String) (isPub : Bool)
  | interface (name : String) (isPub : Bool)
  | impl
  | import (path : String) (isPub : Bool)
  deriving DecidableEq

/-- The name a declaration makes public. -/
def publicName : Decl → Option String
  | .fn name isPub | .type name isPub | .enum name isPub | .const name isPub | .let name isPub
  | .interface name isPub => if isPub then some name else none
  | .impl | .import _ _ => none

structure LibrarySource (size : ℕ) where
  filePath : Option String
  decls : List Decl
  /-- From an import's path to the source it resolved to. -/
  imports : String → Option (Fin size)

namespace LibrarySource

variable {size : ℕ} (source : LibrarySource size)

def publicNames : List String := source.decls.filterMap publicName

/-- The sources of the `pub import`s that resolved. -/
def reexports : List (Fin size) :=
  source.decls.filterMap fun
    | .import path true => source.imports path
    | _ => none

end LibrarySource

/-- The loaded sources, one per file. -/
structure Graph where
  size : ℕ
  source : Fin size → LibrarySource size
  one : Function.Injective fun lib => fileKey (source lib).filePath

def Graph.key (g : Graph) (lib : Fin g.size) : String := fileKey (g.source lib).filePath

structure LibraryNamespace where
  names : Finset String
  collisions : Finset String
  origin : String → Option String

/-- A public name declared in the file `key`; a collision keeps the first owner. -/
def LibraryNamespace.add (key : String) (surface : LibraryNamespace) (name : String) : LibraryNamespace :=
  if name ∈ surface.names then { surface with collisions := insert name surface.collisions }
  else { surface with
    names := insert name surface.names
    origin := Function.update surface.origin name (some key) }

/-- What `collect_surface` fills. -/
structure Collected where
  surface : LibraryNamespace
  visited : Finset String

def collectSurface (g : Graph) : ℕ → Collected → Fin g.size → Option Collected
  | 0, _, _ => none
  | fuel + 1, st, lib =>
    if g.key lib ∈ st.visited then some st
    else
      let surface := (g.source lib).publicNames.foldl (.add (g.key lib)) st.surface
      (g.source lib).reexports.foldlM (collectSurface g fuel) ⟨surface, insert (g.key lib) st.visited⟩

/-- A chain of `pub import`s visits each source once, so it is no longer than there are sources. -/
def publicSurfaceOf (g : Graph) (lib : Fin g.size) : Option LibraryNamespace :=
  (collectSurface g (g.size + 1) ⟨⟨∅, ∅, fun _ => none⟩, ∅⟩ lib).map Collected.surface

end Thera.Loader
