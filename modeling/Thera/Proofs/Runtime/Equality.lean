import Thera.Model.Runtime.Equality

/-! # Equality is a partial equivalence and hashing respects it

Where `valuesEq` answers `true` the two values are related by a symmetric and transitive relation
(not a reflexive one: a NaN differs from itself), and they hash alike at every depth.
-/

namespace Thera.Runtime

open Thera.Bytecode (F64)

theorem f64Eq_symm {x y : F64} (same : f64Eq x y = true) : f64Eq y x = true := by
  simp only [f64Eq, Bool.and_eq_true, Bool.or_eq_true, beq_iff_eq] at same ⊢
  grind

theorem f64Eq_trans {x y z : F64} (left : f64Eq x y = true) (right : f64Eq y z = true) : f64Eq x z = true := by
  have zero {x y : F64} (bits : x.bits = y.bits) : isZero x = isZero y := by rw [isZero, isZero, bits]
  simp only [f64Eq, Bool.and_eq_true, Bool.or_eq_true, beq_iff_eq] at left right ⊢
  grind

/-- Equal doubles have one canonical bit pattern. -/
theorem f64Eq_canonical {x y : F64} (same : f64Eq x y = true) :
    (if isZero x then 0 else x.bits) = if isZero y then 0 else y.bits := by
  simp only [f64Eq, Bool.and_eq_true, Bool.or_eq_true, beq_iff_eq] at same
  rcases same.2 with bits | zeros
  · rw [isZero, isZero, bits]
  · rw [if_pos zeros.1, if_pos zeros.2]

section

variable {eq : Value → Value → Option Bool}

theorem allEq_true {xs ys : List Value} (length : xs.length = ys.length) :
    allEq eq xs ys = some true ↔ List.Forall₂ (fun x y => eq x y = some true) xs ys := by
  induction xs generalizing ys with
  | nil =>
    obtain rfl := List.eq_nil_of_length_eq_zero length.symm
    simp [allEq]
  | cons x xs ih =>
    cases ys with
    | nil => cases length
    | cons y ys =>
      rw [List.forall₂_cons, ← ih (Nat.succ.inj length), allEq]
      cases eq x y with
      | none => simp
      | some answer => cases answer <;> simp

/-- Two vectors are equal when they have pairwise equal elements. -/
theorem vecEq_true {xs ys : List Value} :
    vecEq eq xs ys = some true ↔ List.Forall₂ (fun x y => eq x y = some true) xs ys := by
  rw [vecEq]
  split_ifs with length
  · exact allEq_true length
  · exact ⟨fun absurd_ => by simp at absurd_, fun pairs => absurd pairs.length_eq length⟩

/-- The part of an object that is compared directly, and the values that are compared one by one. -/
def Obj.head : Obj → Obj
  | .list _ => .list []
  | .map _ => .map ⟨[], [], []⟩
  | .struct ty _ => .struct ty []
  | .enum e => .enum { e with fields := [] }
  | .closure func _ => .closure func []
  | obj => obj

theorem objEq_true {a b : Obj} : objEq eq a b = some true ↔
    a.head = b.head ∧ List.Forall₂ (fun x y => eq x y = some true) a.childValues b.childValues := by
  cases a <;> cases b <;>
    simp [objEq, Obj.head, Obj.childValues, MapObj.flat, vecEq_true]
  case struct.struct t xs u ys => split_ifs <;> simp_all [vecEq_true]
  case enum.enum e f => split_ifs <;> simp_all [vecEq_true]
  case closure.closure f xs g ys => split_ifs <;> simp_all [vecEq_true]

/-- Objects with one head whose children hash alike hash alike. -/
theorem hashObj_congr {hash : Value → UInt64 → Option UInt64} {a b : Obj} (heads : a.head = b.head)
    (children : List.Forall₂ (fun x y => ∀ h, hash x h = hash y h) a.childValues b.childValues) (h : UInt64) :
    hashObj hash a h = hashObj hash b h := by
  have elements {xs ys : List Value} (pairs : List.Forall₂ (fun x y => ∀ h, hash x h = hash y h) xs ys)
      (h : UInt64) : xs.foldlM (fun h v => hash v h) h = ys.foldlM (fun h v => hash v h) h := by
    induction pairs generalizing h with
    | nil => rfl
    | cons same _ ih =>
      rw [List.foldlM_cons, List.foldlM_cons, same]
      exact congrArg _ (funext ih)
  cases a <;> cases b <;> simp only [Obj.head, reduceCtorEq, Obj.str.injEq, Obj.bytes.injEq,
    Obj.bytesBuilder.injEq, Obj.struct.injEq, Obj.enum.injEq, Obj.closure.injEq, and_true] at heads
  case str.str => rw [heads]
  case bytes.bytes => rw [heads]
  case bytesBuilder.bytesBuilder => rw [heads]
  case list.list => exact elements children _
  case map.map => exact elements children _
  case struct.struct => rw [hashObj, hashObj, heads]; exact elements children _
  case enum.enum =>
    obtain ⟨ty, variant⟩ : _ ∧ _ := by simpa using heads
    rw [hashObj, hashObj, ty, variant]
    exact elements children _
  case closure.closure => rw [hashObj, hashObj, heads]

end

section

variable {heap : Heap}

/-- The cases of equality that do not look at the heap. -/
private def scalarEq : Value → Value → Bool
  | .double x, .double y => f64Eq x y
  | a, b => a == b

/-- Two handles whose objects have one head and pairwise equal children. -/
private def SameObjects (heap : Heap) (depth : ℕ) (x y : UInt32) : Prop :=
  ∃ a b, heap.get? x = some a ∧ heap.get? y = some b ∧ a.head = b.head ∧
    List.Forall₂ (fun v w => valuesEq heap depth v w = some true) a.childValues b.childValues

variable {depth : ℕ} {a b : Value}

/-- Everything but two different handles is compared without a look at the heap. -/
theorem valuesEq_scalar (same : ∀ x y, a = .ref x → b = .ref y → x = y) :
    valuesEq heap depth a b = some (scalarEq a b) := by
  cases a <;> cases b <;> cases depth <;> try rfl
  case int.int.zero | int.int.succ | bool.bool.zero | bool.bool.succ =>
    change some (_ == _) = _
    simp [scalarEq]
  case ref.ref.zero x y | ref.ref.succ x y _ =>
    obtain rfl : x = y := same x y rfl rfl
    exact (if_pos rfl).trans (by simp [scalarEq])

/-- Two different handles are equal when their objects are, one level down. -/
private theorem valuesEq_ref {x y : UInt32} (differ : x ≠ y) :
    valuesEq heap depth (.ref x) (.ref y) = some true ↔ ∃ d, depth = d + 1 ∧ SameObjects heap d x y := by
  cases depth with
  | zero =>
    have stuck : valuesEq heap 0 (.ref x) (.ref y) = none := if_neg differ
    simp [stuck]
  | succ depth =>
    have down : valuesEq heap (depth + 1) (.ref x) (.ref y) =
        (heap.get? x).bind fun a => (heap.get? y).bind fun b => objEq (valuesEq heap depth) a b := if_neg differ
    simp only [down, Option.bind_eq_some_iff, objEq_true]
    constructor
    · rintro ⟨a, left, b, right, equal⟩
      exact ⟨depth, rfl, a, b, left, right, equal⟩
    · rintro ⟨_, ⟨⟩, a, b, left, right, equal⟩
      exact ⟨a, left, b, right, equal⟩

private theorem valuesEq_true : valuesEq heap depth a b = some true ↔
    scalarEq a b = true ∨ ∃ x y d, a = .ref x ∧ b = .ref y ∧ depth = d + 1 ∧ SameObjects heap d x y := by
  by_cases handles : ∃ x y, a = .ref x ∧ b = .ref y ∧ x ≠ y
  · obtain ⟨x, y, rfl, rfl, differ⟩ := handles
    have scalar : scalarEq (.ref x) (.ref y) = false := by simp [scalarEq, differ]
    rw [scalar, valuesEq_ref differ]
    simp
  · have same (x y : UInt32) (left : a = .ref x) (right : b = .ref y) : x = y :=
      by_contra fun differ => handles ⟨x, y, left, right, differ⟩
    rw [valuesEq_scalar same, Option.some.injEq]
    refine (or_iff_left_of_imp ?_).symm
    rintro ⟨x, y, _, rfl, rfl, -⟩
    simp [scalarEq, same x y rfl rfl]

private theorem scalarEq_symm (same : scalarEq a b = true) : scalarEq b a = true := by
  cases a <;> cases b <;> simp_all [scalarEq]
  exact f64Eq_symm same

private theorem scalarEq_trans {c : Value} (left : scalarEq a b = true) (right : scalarEq b c = true) :
    scalarEq a c = true := by
  cases a <;> cases b <;> cases c <;> simp_all [scalarEq]
  exact f64Eq_trans left right

theorem valuesEq_symm (same : valuesEq heap depth a b = some true) : valuesEq heap depth b a = some true := by
  induction depth generalizing a b with
  | zero =>
    rcases valuesEq_true.mp same with scalar | ⟨x, y, d, -, -, impossible, -⟩
    · exact valuesEq_true.mpr (.inl (scalarEq_symm scalar))
    · cases impossible
  | succ depth ih =>
    rcases valuesEq_true.mp same with scalar | ⟨x, y, d, rfl, rfl, deeper, oa, ob, left, right, heads, pairs⟩
    · exact valuesEq_true.mpr (.inl (scalarEq_symm scalar))
    · cases deeper
      exact valuesEq_true.mpr (.inr ⟨y, x, depth, rfl, rfl, rfl, ob, oa, right, left, heads.symm,
        pairs.flip.imp fun v w equal => ih equal⟩)

private theorem forall₂_comp {R S T : Value → Value → Prop} (compose : ∀ a b c, R a b → S b c → T a c)
    {xs ys zs : List Value} (left : List.Forall₂ R xs ys) (right : List.Forall₂ S ys zs) :
    List.Forall₂ T xs zs := by
  induction left generalizing zs with
  | nil =>
    cases right
    exact .nil
  | cons first _ ih =>
    cases right with
    | cons second rest => exact .cons (compose _ _ _ first second) (ih rest)

theorem valuesEq_trans {c : Value} (first : valuesEq heap depth a b = some true)
    (second : valuesEq heap depth b c = some true) : valuesEq heap depth a c = some true := by
  induction depth generalizing a b c with
  | zero =>
    rcases valuesEq_true.mp first with left | ⟨x, y, d, -, -, impossible, -⟩
    · rcases valuesEq_true.mp second with right | ⟨x, y, d, -, -, impossible, -⟩
      · exact valuesEq_true.mpr (.inl (scalarEq_trans left right))
      · cases impossible
    · cases impossible
  | succ depth ih =>
    -- An identical handle on either side leaves the other comparison; two structural steps compose.
    rcases valuesEq_true.mp first with left | ⟨x, y, d, rfl, rfl, deeper, oa, ob, atX, atY, heads, pairs⟩
    · rcases valuesEq_true.mp second with right | ⟨y, z, d, rfl, rfl, -, objects⟩
      · exact valuesEq_true.mpr (.inl (scalarEq_trans left right))
      · obtain ⟨x, rfl, rfl⟩ : ∃ x, a = .ref x ∧ x = y := by cases a <;> simp_all [scalarEq]
        exact second
    · rcases valuesEq_true.mp second with right | ⟨y', z, d', same, rfl, deeper', ob', oc, atY', atZ, heads', pairs'⟩
      · obtain ⟨z, rfl, rfl⟩ : ∃ z, c = .ref z ∧ y = z := by cases c <;> simp_all [scalarEq]
        exact first
      · cases same
        cases deeper
        cases deeper'
        cases atY.symm.trans atY'
        refine valuesEq_true.mpr (.inr ⟨x, z, depth, rfl, rfl, rfl, oa, oc, atX, atZ, heads.trans heads', ?_⟩)
        have composes (u v w : Value) (left : valuesEq heap depth u v = some true)
            (right : valuesEq heap depth v w = some true) := ih left right
        exact forall₂_comp composes pairs pairs'

private theorem hashInto_scalar (same : scalarEq a b = true) (level : ℕ) (h : UInt64) :
    hashInto heap level a h = hashInto heap level b h := by
  cases a <;> cases b <;> simp_all [scalarEq]
  case double.double x y =>
    cases level <;> simp only [hashInto, f64Eq_canonical same]

/-- Equal values hash alike, whatever depth the hash is computed at. -/
theorem hashInto_eq (same : valuesEq heap depth a b = some true) (level : ℕ) (h : UInt64) :
    hashInto heap level a h = hashInto heap level b h := by
  induction depth generalizing a b level h with
  | zero =>
    rcases valuesEq_true.mp same with scalar | ⟨x, y, d, -, -, impossible, -⟩
    · exact hashInto_scalar scalar level h
    · cases impossible
  | succ depth ih =>
    rcases valuesEq_true.mp same with scalar | ⟨x, y, d, rfl, rfl, deeper, oa, ob, left, right, heads, pairs⟩
    · exact hashInto_scalar scalar level h
    · cases deeper
      cases level with
      | zero => rfl
      | succ level =>
        rw [hashInto, hashInto, left, right]
        exact hashObj_congr heads (pairs.imp fun v w equal => ih equal level) h

theorem hashValue_eq (same : valuesEq heap depth a b = some true) (level : ℕ) :
    hashValue heap level a = hashValue heap level b := hashInto_eq same level fnvOffset

end

end Thera.Runtime
