import Thera.Model.Sdk.Text

/-! # Globs

The patterns of `thera.exclude`. A matcher takes what remains of the pattern and of the path.
-/

namespace Thera.Lsp

open Sdk

/-- Try the rest of the pattern at every position from here on; without `cross`, no further than the first slash. -/
def matchStar (rest : Text → Bool) (cross : Bool) : Text → Bool
  | [] => rest []
  | c :: s => rest (c :: s) || (if !cross && c = '/' then false else matchStar rest cross s)

def matchAt : Text → Text → Bool
  | [], s => s.isEmpty
  | '*' :: '*' :: '/' :: p, s => matchStar (matchAt p) true s
  | '*' :: '*' :: p, s => matchStar (matchAt p) true s
  | '*' :: p, s => matchStar (matchAt p) false s
  | '?' :: p, s =>
      match s with
      | [] => false
      | c :: s => c ≠ '/' && matchAt p s
  | pc :: p, s =>
      match s with
      | [] => false
      | c :: s => c = pc && matchAt p s

def matchesPath (pattern path : Text) : Bool := matchAt pattern path

/-- `'/**'`. -/
def below : Text := ['/', '*', '*']

def prunesDir (pattern rel : Text) : Bool :=
  if below <:+ pattern then matchesPath (pattern.take (pattern.length - below.length)) rel else false

end Thera.Lsp
