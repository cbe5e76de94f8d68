import Thera.Proofs.Compiler.StackDepth

/-! # Operand-stack discipline

In the code of a program that compiles without errors, every instruction is reached with one depth of the
operand stack on all paths, and finds its operands above the frame's base. A `break` or `continue` in an
operand jumps with the operands before it still on the stack, and an empty `match` pushes nothing; a
return takes the top of the stack and drops what is below it.
-/

namespace Thera.Compiler

/-- What an expression may not do to the operands of others. -/
structure Orderly (library : Library) (scope : ModuleScope) (e : Expr) : Prop where
  /-- No operand after the first has a `break` or `continue` of the loop around it. -/
  held : ∀ e' ∈ e.held, ¬ Loose e'
  arms : ∀ {span : Span} {origin : MatchOrigin} {subject : Expr} {arms : List MatchArm},
    e = .match span origin subject arms → arms ≠ []
  /-- `List.len` takes no arguments. -/
  lengths : ∀ {span span' : Span} {object : Expr} {member : String} {typeArgs recvTypeArgs : List TypeRef}
    {args : List CallArg}, e = .call span (.field span' object member) typeArgs recvTypeArgs args →
    ∀ (types : TypeScope) (ctx : InferCtx) (t : String), nameOfType (library.inferExpr object types ctx none) = some t →
      scope.nativeInstanceMethods.getIn t member = some "list_len" → args = []

/-- Code all of whose expressions are orderly. -/
def orderly (library : Library) (scope : ModuleScope) : Hereditary :=
  { Hereditary.everywhere
      (Sum.elim (Orderly library scope) fun p => ∀ {span : Span} {e : Expr}, p = .literal span e → ¬ Loose e)
      (fun _ _ => ⟨fun _ => nofun, nofun, nofun⟩) (fun _ _ _ => ⟨fun _ => nofun, nofun, nofun⟩) with
    balanced := True
    held := fun _ _ _ h member => (h _ .refl).held _ member
    heldLiteral := fun _ _ _ h => h _ .refl rfl
    arms_ne := fun _ _ _ _ _ h => (h _ .refl).arms rfl }

/-- `while true { let x = 1 + 2; break; }`. -/
def addThenBreak : Program := oneFunction []
  [.while noSpan (.bool noSpan true)
    (.mk [.let noSpan false "x" none (.binary noSpan (.int noSpan 1) "+" (.int noSpan 2)), .break noSpan] none)]

/-- `while true { let x = 1 + { break; 2 }; }`. -/
def breakInOperand : Program := oneFunction []
  [.while noSpan (.bool noSpan true)
    (.mk [.let noSpan false "x" none
      (.binary noSpan (.int noSpan 1) "+" (.block noSpan (.mk [.break noSpan] (some (.int noSpan 2)))))] none)]

/-- An integer literal has no jumps. -/
theorem not_loose_int (span : Span) (value : ℤ) : ¬ Loose (.int span value)
  | .here leaves => by simp [Expr.leaves] at leaves
  | .inside member _ => by simp [Expr.sameLoop, Expr.children] at member

theorem addThenBreak_tidy {library : Library} {scope : ModuleScope} :
    ∀ d ∈ declarations addThenBreak [], d.Has (orderly library scope) := by
  intro d member
  obtain rfl := List.mem_singleton.mp member
  have literal {e : Expr} (leaf : parts (.inl e) = []) (orderly : Orderly library scope e) :
      (Thera.Compiler.orderly library scope).expr e := forall_within_iff.mpr ⟨orderly, by simp [leaf]⟩
  refine ⟨fun f inside => ?_, fun f inside body some => ?_, nofun, nofun, fun _ => nofun⟩
  · obtain rfl := List.mem_singleton.mp inside
    exact fun p => nofun
  · obtain rfl := List.mem_singleton.mp inside
    obtain rfl := Option.some.inj some
    refine ⟨fun e child => ?_, fun _ e held => ?_⟩
    · rcases List.mem_pair.mp child with rfl | rfl
      · exact literal rfl ⟨fun _ => nofun, nofun, nofun⟩
      · refine forall_within_iff.mpr ⟨⟨fun e held => ?_, nofun, nofun⟩, fun part inside => ?_⟩
        · obtain rfl := List.mem_singleton.mp held
          exact not_loose_int _ _
        · rcases List.mem_pair.mp inside with rfl | rfl
          · exact literal rfl ⟨fun _ => nofun, nofun, nofun⟩
          · exact literal rfl ⟨fun _ => nofun, nofun, nofun⟩
    · cases held

/-- `fn f<T>(x: T) { match x {}; }`, which covers all values of a type nothing is known of. -/
def emptyMatch : Program := oneFunction [⟨noSpan, some "x", false, "x", none, none⟩]
  [.expr noSpan (.match noSpan .source (.ident noSpan "x") [])]

/-- `let x = 1 + { return 2; 3 };`. -/
def returnInOperand : Program := oneFunction []
  [.let noSpan false "x" none (.binary noSpan (.int noSpan 1) "+"
    (.block noSpan (.mk [.return noSpan (some (.int noSpan 2))] (some (.int noSpan 3)))))]

/-- The code of `breakInOperand`; the exit of its loop is at 8. -/
def breakInOperandCode : List Instr :=
  [.constBool true, .jumpIfFalse 8, .constInt 1, .jump 8, .constInt 2, .simple .addI64, .store 0, .jump 0,
    .simple .constUnit, .simple .return]

def emptyMatchCode : List Instr := [.load 0, .store 1, .simple .pop, .simple .constUnit, .simple .return]

def returnInOperandCode : List Instr :=
  [.constInt 1, .constInt 2, .simple .return, .constInt 3, .simple .addI64, .store 0, .simple .constUnit, .simple .return]

/-- A step of control, by the instruction it goes through. -/
theorem Reaches.through {types : List TypeDef} {code : List Instr} {pc depth : ℕ} (before : Reaches types code pc depth)
    (i : Instr) (next : ℕ) (here : code[pc]? = some i) (goes : next ∈ i.successors pc) :
    Reaches types code next (depth - i.pops types + i.pushes) := before.step here goes

end Thera.Compiler
