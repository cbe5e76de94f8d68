import Thera.Model.Sdk.Text

/-! # Paths

The lexical path functions of `std.path`. A path is a text; its components stand between slashes.
-/

namespace Thera.Sdk.Path

def dot : Text := ['.']

def dotdot : Text := ['.', '.']

/-- `parts.join(sep)`. -/
def joinParts (sep : Char) (parts : List Text) : Text := [sep].intercalate parts

/-- A leading empty component marks the root; the other empty ones are dropped. -/
def components (path : Text) : List Text :=
  match path.splitOn '/' with
  | [] => []
  | first :: others => first :: others.filter (· ≠ [])

def isAbsolute (path : Text) : Bool := path.head? = some '/'

def join (base part : Text) : Text :=
  if base = [] then part
  else if part = [] then base
  else if isAbsolute part then part
  else if base.getLast? = some '/' then base ++ part
  else base ++ '/' :: part

def dirname (path : Text) : Text :=
  let parts := components path
  if parts.length ≤ 1 then
    if parts = [[]] then ['/'] else dot
  else
    let rest := parts.dropLast
    if rest = [[]] then ['/'] else joinParts '/' rest

def basename (path : Text) : Text :=
  match (components path).getLast? with
  | none => path
  | some last => if last = [] then ['/'] else last

def extension (path : Text) : Text :=
  let parts := (basename path).splitOn '.'
  if parts.length < 2 then []
  else if parts.length = 2 ∧ parts.head? = some [] then []
  else '.' :: parts.getLastD []

def stem (path : Text) : Text :=
  let name := basename path
  if extension name = [] then name else joinParts '.' (name.splitOn '.').dropLast

/-- One component against the stack of those kept. -/
def normalizeStep (isAbs : Bool) (stack : List Text) (part : Text) : List Text :=
  if part = [] ∨ part = dot then stack
  else if part = dotdot then
    if stack ≠ [] ∧ stack.getLast? ≠ some dotdot then stack.dropLast
    else if isAbs then stack
    else stack ++ [dotdot]
  else stack ++ [part]

def normalize (path : Text) : Text :=
  let isAbs := isAbsolute path
  let stack := (components path).foldl (normalizeStep isAbs) []
  let body := joinParts '/' stack
  if isAbs then '/' :: body
  else if body = [] then dot
  else body

/-- The components without the root marker; none for the current directory. -/
def pathParts (p : Text) : List Text :=
  if p = dot then []
  else
    match components p with
    | [] :: others => others
    | cs => cs

/-- How many leading components are shared. -/
def sharedLength : List Text → List Text → ℕ
  | b :: bs, t :: ts => if b = t then sharedLength bs ts + 1 else 0
  | _, _ => 0

def cannotRelate (source target : Text) : Text := "cannot make `".toList ++ target ++ "` relative to `".toList ++ source ++ "`".toList

def relative (source target : Text) : Except Text Text :=
  let b := normalize source
  let t := normalize target
  if b = t then .ok dot
  else if isAbsolute b ≠ isAbsolute t then .error (cannotRelate source target ++ ": one is absolute, the other relative".toList)
  else
    let bc := pathParts b
    let tc := pathParts t
    let i := sharedLength bc tc
    if bc[i]? = some dotdot then .error (cannotRelate source target)
    else
      let out := List.replicate (bc.length - i) dotdot ++ tc.drop i
      if out = [] then .ok dot else .ok (joinParts '/' out)

end Thera.Sdk.Path
