import Thera.Model.Checker.Conformance
import Thera.Model.Compiler.Calls

/-! # Calls

What the checker requires of the arguments of a call, and of the order of a signature's parameters. A comparison
of types may not return, so neither may the check of a call: it takes the depth `isAssignable` may go to.
-/

namespace Thera.Checker

open Thera.Element
open Thera.Compiler hiding ImplDecl InterfaceDecl TypeDefElement

/-! ## Types -/

mutual

/-- The displayed form of a type. -/
def typeToString : Ty → String
  | .primitive p => primitiveToString p
  | .interface id args => if args.length = 0 then id.name else id.name ++ "<" ++ ", ".intercalate (typeStrings args) ++ ">"
  | .typeParameter name => name
  | .function params result => "(" ++ ", ".intercalate (typeStrings params) ++ ") -> " ++ typeToString result
  | .unknown => "?"
  | .never => "Never"

def typeStrings : List Ty → List String
  | [] => []
  | ty :: rest => typeToString ty :: typeStrings rest

end

mutual

/-- Record what `actual` binds the type parameters of `param` to; the first binding stays. -/
def unify (bindings : Table String Ty) : Ty → Ty → Table String Ty
  | .typeParameter name, actual =>
      if actual ≠ .unknown ∧ bindings.has name = false then bindings.set name actual else bindings
  | .interface pid pargs, .interface aid aargs =>
      if aid = pid ∧ aargs.length = pargs.length then unifyAll bindings pargs aargs else bindings
  | .function pparams pret, .function aparams aret =>
      if aparams.length = pparams.length then unify (unifyAll bindings pparams aparams) pret aret else bindings
  | _, _ => bindings

def unifyAll (bindings : Table String Ty) : List Ty → List Ty → Table String Ty
  | p :: params, a :: actuals => unifyAll (unify bindings p a) params actuals
  | _, _ => bindings

end

def isLenientOperand : Ty → Bool
  | .unknown | .typeParameter _ => true
  | _ => false

/-! ## Signatures -/

/-- Named parameters come last; the receiver and a parameter the parser made up are passed over. -/
def checkParamOrder (params : List Param) : List Diagnostic :=
  (params.foldl (fun (seenNamed, errors) p =>
    if p.isSelf ∨ p.name = "" then (seenNamed, errors)
    else match p.label with
      | some _ => (true, errors)
      | none =>
          (seenNamed, if seenNamed then errors ++ [.at ("positional parameter `" ++ p.name ++ "` after a `named` one: named " ++
            "parameters must come last (move it before the first `named`, or mark it `named`)") p.span] else errors))
    ((false, []) : Bool × List Diagnostic)).2

/-- The parameters the resolver records for a declaration. -/
def buildParams (selfType : Ty) (resolveOpt : Option TypeRef → Ty) (params : List Param) : List ParameterElement :=
  params.map fun p =>
    if p.isSelf then { label := none, isSelf := true, name := "self", ty := selfType, hasDefault := false }
    else { label := p.label, isSelf := false, name := p.name, ty := resolveOpt p.typeAnn, hasDefault := p.defaultValue.isSome }

/-! ## Arguments -/

def paramByLabel (params : List ParameterElement) (label : String) : Option ParameterElement :=
  params.find? fun p => p.label = some label

/-- The parameter each argument is compared with: by its label, else by its place. -/
def paramsForArgs (params : List ParameterElement) (args : List CallArg) : List (Option ParameterElement) :=
  args.zipIdx.map fun (a, i) =>
    match a.label with
    | some label => paramByLabel params label
    | none => params[i]?

def argSpan : CallArg → Span
  | .mk span _ _ => span

/-- The label an unlabelled argument of a labelled parameter should have had. -/
def labelOwed (arg : CallArg) (param : Option ParameterElement) : Option String :=
  match arg.label with
  | some _ => none
  | none => param.bind ParameterElement.label

section

variable (lib : LibraryElement) (fuel : ℕ)

def expectType (actual expected : Ty) (context : String) (span : Span) : Option (List Diagnostic) := do
  if ← isAssignable lib fuel actual expected then return []
  else return [.at (context ++ ": expected " ++ typeToString expected ++ ", found " ++ typeToString actual) span]

def armsCompatible (a b : Ty) : Option Bool := do
  if ← isAssignable lib fuel a b then return true else isAssignable lib fuel b a

def checkArgumentLabels (fnName : String) (args : List CallArg) (matched : List (Option ParameterElement)) :
    List Diagnostic :=
  (args.zip matched).filterMap fun (a, p) => (labelOwed a p).map fun label =>
    .at ("missing argument label `" ++ label ++ ":` in the call to \"" ++ fnName ++ "\"") (argSpan a)

def boundMissNote (t : Ty) (bound : TypeId) : String :=
  let undispatchable := match t with
    | .primitive _ =>
        match defById lib ⟨coreOwner lib (typeToString t), typeToString t⟩ with
        | some d => implementsInterface d bound
        | none => false
    | _ => false
  if undispatchable then
    " — an impl on a primitive type cannot be reached through a bound yet; primitive bounds are limited to the " ++
      "built-in Eq/Debug/Display/Ord (see roadmap: primitive vtables)"
  else ""

/-- One argument's bindings of the type parameters, compared with those of the arguments before it. -/
def bindArgument (fnEl : FunctionElement) (span : Span) :
    Table String Ty → Table String (Ty × Span) → Option (Table String (Ty × Span) × List Diagnostic)
  | [], bindings => some (bindings, [])
  | (tp, nt) :: rest, bindings => do
      match bindings.get tp with
      | some (prev, _) =>
          let conflict ←
            if tp ∈ fnEl.typeParameters ∧ isLenientOperand prev = false ∧ isLenientOperand nt = false then
              (! ·) <$> armsCompatible lib fuel prev nt
            else some false
          let (bindings, errors) ← bindArgument fnEl span rest bindings
          return (bindings, (if conflict then [.at ("conflicting argument types for type parameter `" ++ tp ++ "` of \"" ++
            fnEl.name ++ "\": `" ++ typeToString prev ++ "` and `" ++ typeToString nt ++ "`") span] else []) ++ errors)
      | none => bindArgument fnEl span rest (bindings.set tp (nt, span))

def bindArguments (fnEl : FunctionElement) (recvBindings : Table String Ty) :
    List (CallArg × Option ParameterElement × Ty) → Table String (Ty × Span) →
      Option (Table String (Ty × Span) × List Diagnostic)
  | [], bindings => some (bindings, [])
  | (_, none, _) :: rest, bindings => bindArguments fnEl recvBindings rest bindings
  | (a, some p, actual) :: rest, bindings => do
      let (bindings, errors) ← bindArgument lib fuel fnEl (argSpan a) (unify [] (p.ty.substitute recvBindings.get) actual) bindings
      let (bindings, later) ← bindArguments fnEl recvBindings rest bindings
      return (bindings, errors ++ later)

/-- The type parameters the arguments bind agree with one another and with their bounds. -/
def checkBounds (fnEl : FunctionElement) (recvBindings : Table String Ty)
    (triples : List (CallArg × Option ParameterElement × Ty)) : Option (List Diagnostic) := do
  if fnEl.typeParameters.length = 0 then return []
  let (bindings, errors) ← bindArguments lib fuel fnEl recvBindings triples []
  return errors ++ fnEl.typeParameterBounds.flatMap fun (tp, bounds) =>
    match bindings.get tp with
    | some (arg, span) => (bounds.filter fun bound => !satisfiesBound lib arg bound).map fun bound =>
        .at ("type argument `" ++ typeToString arg ++ "` for `" ++ tp ++ "` does not implement `" ++ bound.name ++
          "` (required by \"" ++ fnEl.name ++ "\")" ++ boundMissNote lib arg bound) span
    | none => []

def checkArgTypes (fnEl : FunctionElement) (recvBindings : Table String Ty) :
    List (CallArg × Option ParameterElement × Ty) → Option (List Diagnostic)
  | [] => some []
  | (_, none, _) :: rest => checkArgTypes fnEl recvBindings rest
  | (a, some p, actual) :: rest => do
      let errors ← expectType lib fuel actual (p.ty.substitute recvBindings.get) ("argument to \"" ++ fnEl.name ++ "\"")
        (argSpan a)
      let later ← checkArgTypes fnEl recvBindings rest
      return errors ++ later

/-- The reports on the arguments of a call, given their types. -/
def checkCallArgs (fnEl : FunctionElement) (recvBindings : Table String Ty) (args : List CallArg) (argTypes : List Ty)
    (span : Span) : Option (List Diagnostic) :=
  let params := nonSelfParams fnEl.parameters
  let validLabels := params.filterMap ParameterElement.label
  match args.find? fun a => match a.label with | some l => l ∉ validLabels | none => false with
  | some a =>
      some [.at ("unknown argument label \"" ++ a.label.getD "" ++ "\" for \"" ++ fnEl.name ++ "\"") (argSpan a)]
  | none =>
      let required := (params.filter fun p => !p.hasDefault).length
      let max := params.length
      if args.length < required ∨ args.length > max then
        let range := if required = max then toString required else toString required ++ "–" ++ toString max
        let plural := if required = 1 ∧ max = 1 then "" else "s"
        some [.at ("\"" ++ fnEl.name ++ "\" expects " ++ range ++ " argument" ++ plural ++ ", got " ++ toString args.length) span]
      else do
        let matched := paramsForArgs params args
        let triples := args.zipIdx.zipWith (fun (a, i) p => (a, p, (argTypes[i]?).getD .unknown)) matched
        let mismatches ← checkArgTypes lib fuel fnEl recvBindings triples
        let bounds ← checkBounds lib fuel fnEl recvBindings triples
        return mismatches ++ checkArgumentLabels fnEl.name args matched ++ bounds

end

end Thera.Checker
