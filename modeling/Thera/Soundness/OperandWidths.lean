import Thera.Proofs.Compiler.Operands

/-! # Operands within the widths of the wire format

The front end counts without bounds, and the decoder cuts an operand to the width it stores it in. Within
the limits the format's widths set for calls, captures, layouts and tables, no operand is cut, save in a
map literal: its keys and values are arguments of one native call, which only string literals split.
-/

namespace Thera.Compiler

/-- The operands fit the widths `decode_instr` reads them with. An integer is 64 bits on both sides, and a
string or a jump target is not cut. -/
def Instr.Narrow : Instr → Prop
  | .load slot | .store slot => slot < 2 ^ 16
  | .globalGet slot | .globalSet slot => slot < 2 ^ 32
  | .call func argc => func < 2 ^ 32 ∧ argc < 2 ^ 8
  | .callNative _ argc | .callIndirect argc | .callVirtual _ argc => argc < 2 ^ 8
  | .enumNew ty variant fieldCount => ty < 2 ^ 32 ∧ variant < 2 ^ 16 ∧ fieldCount < 2 ^ 8
  | .enumGet i | .fieldGet i | .fieldSet i => i < 2 ^ 16
  | .structNew ty => ty < 2 ^ 32
  | .listNew count => count < 2 ^ 32
  | .closureNew func captures => func < 2 ^ 32 ∧ captures < 2 ^ 8
  | _ => True

/-- An expression or pattern whose counts fit the instruction it becomes. The receiver or qualifier of a
call counts with its arguments, a map's entries count twice. -/
def Sized : Expr ⊕ Pattern → Prop
  | .inl (.mapLit _ entries) => entries.length * 2 < 2 ^ 8
  | .inl (.listLit _ items) => items.length < 2 ^ 32
  | .inl (.call _ (.field ..) _ _ args) => args.length + 1 < 2 ^ 8
  | .inl (.call _ _ _ _ args) => args.length < 2 ^ 8
  | .inl (.lambda _ params body) => (freeVariables params body).length < 2 ^ 8
  | .inr (.constructor _ _ args) => args.length ≤ 2 ^ 16
  | _ => True

/-- Code all of whose expressions fit. -/
def sized : Hereditary := .everywhere Sized (fun _ _ => trivial) fun _ _ _ => trivial

/-- A declaration whose parameters, fields and variants can be numbered. -/
def Decl.Limited : Decl → Prop
  | .fn x => arity x.params < 2 ^ 8
  | .interface x => ∀ m ∈ x.methods, arity m.params + 1 < 2 ^ 8
  | .impl x => ∀ m ∈ x.methods, arity m.params + 1 < 2 ^ 8
  | .type x => x.fields.length ≤ 2 ^ 16
  | .enum x => x.variants.length ≤ 2 ^ 16
  | _ => True

/-- A module whose tables and locals can be numbered. -/
structure Module.Limited (m : Module) : Prop where
  functions : m.functions.length ≤ 2 ^ 32
  types : m.types.length ≤ 2 ^ 32
  /-- The first three ids belong to core enums. -/
  enums : m.enums.length + 3 ≤ 2 ^ 32
  globals : m.globalCount ≤ 2 ^ 32
  locals : ∀ f ∈ m.functions, f.localCount < 2 ^ 16

theorem Decl.Limited.method {d : Decl} (limited : d.Limited) {f : FnDecl} (member : f ∈ d.methods) :
    arity f.params + 1 < 2 ^ 8 := by
  cases d with
  | interface x | impl x => exact limited f member
  | _ => cases member

theorem Passes.lt {argc : ℕ} (passes : Passes sized argc) : argc < 2 ^ 8 := by
  obtain ⟨span, callee, typeArgs, recvTypeArgs, args, written, le⟩ := passes
  have fits : Sized (.inl (.call span callee typeArgs recvTypeArgs args)) := written _ .refl
  have few : args.length < 2 ^ 8 := by
    cases callee with
    | field => exact Nat.lt_of_succ_lt fits
    | _ => exact fits
  rcases le with le | ⟨⟨span', object, member, rfl⟩, rfl⟩
  · exact Nat.lt_of_le_of_lt le few
  · exact fits

section

variable {library : Library} {decls : List Decl} {start final : ModuleScope} {t : FnCompiler} {i : Instr}

/-- Every operand of a site is within its width, if the tables of the final scope are small. -/
theorem Site.narrow (known : start.Registered decls) (limited : ∀ d ∈ decls, d.Limited) (ready : t.Ready sized library)
    (grown : start.Grows final) (after : t.scope.Grows final) (locals : t.localCount < 2 ^ 16)
    (units : final.units.length ≤ 2 ^ 32) (types : final.types.length ≤ 2 ^ 32) (enums : start.nextEnumTy ≤ 2 ^ 32)
    (globals : start.nextGlobalSlot ≤ 2 ^ 32) (site : Site sized t i) : i.Narrow := by
  have tables : t.scope = _ := grown.tables_eq after
  have unit_lt {index : ℕ} {unit : CodeUnit} (there : start.units[index]? = some unit) : index < 2 ^ 32 :=
    Nat.lt_of_lt_of_le (Nat.lt_of_lt_of_le (List.getElem?_eq_some_iff.mp there).1 grown.units.length_le) units
  have unit_eq {index : ℕ} {unit unit' : CodeUnit} (there : start.units[index]? = some unit)
      (there' : t.scope.units[index]? = some unit') : unit = unit' := by
    obtain ⟨inside, rfl⟩ := List.getElem?_eq_some_iff.mp there
    obtain ⟨inside', rfl⟩ := List.getElem?_eq_some_iff.mp there'
    exact (grown.units.getElem inside).trans (after.units.getElem inside').symm
  have laid_lt {index n : ℕ} (laid : t.scope.types[index]?.map TypeDef.fieldCount = some n) : index < 2 ^ 32 := by
    obtain ⟨layout, here, _⟩ := Option.map_eq_some_iff.mp laid
    have inside := Nat.lt_of_lt_of_le (List.getElem?_eq_some_iff.mp here).1 after.types.length_le
    exact Nat.lt_of_lt_of_le inside types
  have field_lt {owner name : String} {info : StructInfo} (found : t.scope.resolveStruct owner name = some info) {i : ℕ}
      (bound : i < info.fieldNames.length) : i < 2 ^ 16 := by
    rw [tables] at found
    obtain ⟨_, x, declared, same⟩ := known.structs found
    exact Nat.lt_of_lt_of_le bound (same ▸ limited _ declared)
  cases site with
  | load bound | store bound => exact Nat.lt_trans bound locals
  | globalGet found =>
    rw [tables] at found
    exact Nat.lt_of_lt_of_le (known.globals found) globals
  | globalSet member =>
    rw [tables] at member
    exact Nat.lt_of_lt_of_le (known.inits _ member).1 globals
  | callFunction found there le =>
    rw [tables] at found
    obtain ⟨unit, here, declared⟩ := known.functions found
    exact ⟨unit_lt here, Nat.lt_of_le_of_lt le (unit_eq here there ▸ limited _ declared)⟩
  | callMethod found there le =>
    rw [tables] at found
    obtain ⟨unit, here, d, declared, member⟩ := known.methods found
    exact ⟨unit_lt here, Nat.lt_of_le_of_lt le (unit_eq here there ▸ (limited d declared).method member)⟩
  | callOperator found le =>
    rw [tables] at found
    obtain ⟨unit, here, _⟩ := known.methods found
    exact ⟨unit_lt here, Nat.lt_of_le_of_lt le (by decide)⟩
  | callNative le => exact le.elim (fun le => Nat.lt_succ_of_le le) Passes.lt
  | mapNew written => exact written _ .refl
  | wellKnown ty_le tag_le =>
    exact ⟨Nat.lt_of_le_of_lt ty_le (by decide), Nat.lt_of_le_of_lt tag_le (by decide), (by decide : 1 < 2 ^ 8)⟩
  | enumNew found named le =>
    rw [tables] at found
    obtain ⟨lt, x, declared, same⟩ := known.enums found
    have tag_lt := (List.findIdx?_eq_some_iff_getElem.mp named).1
    refine ⟨Nat.lt_of_lt_of_le lt enums, Nat.lt_of_lt_of_le tag_lt (same ▸ limited _ declared), ?_⟩
    exact le.elim (fun none => none ▸ (by decide)) Passes.lt
  | payload | cellGet | cellSet => exact (by decide : 0 < 2 ^ 16)
  | enumGet written bound => exact Nat.lt_of_lt_of_le bound (written _ .refl)
  | cell known => exact laid_lt (ready.scope.cell known)
  | structNew found => exact laid_lt (ready.scope.layouts found)
  | fieldGet found bound | fieldSet found bound => exact field_lt found bound
  | listNew written => exact written _ .refl
  | functionValue found =>
    rw [tables] at found
    obtain ⟨unit, here, _⟩ := known.functions found
    exact ⟨unit_lt here, by decide⟩
  | closureNew written bound le => 
    have func_lt := Nat.lt_of_lt_of_le (Nat.lt_of_lt_of_le bound after.units.length_le) units
    exact ⟨func_lt, Nat.lt_of_le_of_lt le (written _ .refl)⟩
  | callIndirect passes => exact passes.lt
  | callVirtual le => exact le.elim (fun le => Nat.lt_of_le_of_lt le (by decide)) Passes.lt
  | callInterface found le =>
    rw [tables] at found
    obtain ⟨row, inTable, inRow⟩ := Option.bind_eq_some_iff.mp found
    obtain ⟨_, rowMember⟩ := Table.mem_of_get inTable
    obtain ⟨_, entryMember⟩ := Table.mem_of_get inRow
    obtain ⟨d, declared, f, member, same⟩ := known.sigs _ rowMember _ entryMember
    exact Nat.lt_of_le_of_lt le (same ▸ (limited d declared).method member)
  | _ => trivial

end

/-- `[0: 0, 1: 1, …];` with `n` entries. -/
def mapLiteral (n : ℕ) : Program := oneFunction []
  [.expr noSpan (.mapLit noSpan ((List.range n).map fun i => .mk (.int noSpan i) (.int noSpan i)))]

theorem mapLiteral_sized {n : ℕ} (small : n * 2 < 2 ^ 8) : ∀ d ∈ declarations (mapLiteral n) [], d.Has sized := by
  intro d member
  obtain rfl := List.mem_singleton.mp member
  refine ⟨fun f inside => ?_, fun f inside body some => ?_, nofun, nofun, False.elim⟩
  · obtain rfl := List.mem_singleton.mp inside
    exact fun p => nofun
  · obtain rfl := List.mem_singleton.mp inside
    obtain rfl := Option.some.inj some
    refine ⟨fun e child => ?_, False.elim⟩
    obtain rfl := List.mem_singleton.mp child
    refine forall_within_iff.mpr ⟨by simpa [Sized] using small, fun part inside => ?_⟩
    -- every part is an integer literal
    have literal : ∃ i : ℤ, part = .inl (.int noSpan i) := by
      simp only [parts, Expr.children, Expr.patterns, List.map_nil, List.append_nil, List.mem_map, List.mem_flatMap] at inside
      obtain ⟨_, ⟨_, ⟨i, _, rfl⟩, key⟩, rfl⟩ := inside
      rcases List.mem_pair.mp key with rfl | rfl <;> exact ⟨i, rfl⟩
    obtain ⟨i, rfl⟩ := literal
    exact forall_within_iff.mpr ⟨trivial, fun _ inside => by cases inside⟩

/-- `fn f(g) { g(0, 1, …); }` with `n` arguments. -/
def manyArguments (n : ℕ) : Program := oneFunction [⟨noSpan, some "g", false, "g", none, none⟩]
  [.expr noSpan (.call noSpan (.ident noSpan "g") [] [] ((List.range n).map fun i => .mk noSpan none (.int noSpan i)))]

end Thera.Compiler
