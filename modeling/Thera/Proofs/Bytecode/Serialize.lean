import Thera.Model.Bytecode.Serialize

/-! # The byte-level primitives read back what they write

Each `reads_write…` lemma says that a reader recovers the written value in front of any
continuation. The two varints carry the argument: the loop invariant is that the bits read so far
are the first `shift` bits of the value, and the value still to be written is that value shifted.
-/

namespace Thera.Bytecode

open Framing (Reads Codes)

/-! ## Bits -/

/-- The first `n` bits of `v`. -/
def Holds (result v : BitVec 64) (n : ℕ) : Prop := ∀ j, result.getLsbD j = (decide (j < n) && v.getLsbD j)

theorem Holds.eq {result v : BitVec 64} {n : ℕ} (holds : Holds result v n) (above : ∀ j, n ≤ j → j < 64 → v.getLsbD j = false) :
    result = v := by
  refine BitVec.eq_of_getLsbD_eq fun j inside => ?_
  rw [holds]
  by_cases low : j < n
  · simp [low]
  · simp [above j (by omega) inside]

/-- The seven payload bits of a byte that is written. -/
def payload (x : BitVec 64) : UInt8 := ⟨(x &&& 0x7f#64).setWidth 8⟩

/-- What the masks see of a byte that carries seven payload bits. -/
theorem payload_masks (x : BitVec 64) :
    (payload x ||| 0x80) &&& 0x7f = payload x ∧ (payload x ||| 0x80) &&& 0x80 ≠ 0 ∧
      payload x &&& 0x7f = payload x ∧ payload x &&& 0x80 = 0 := by
  have table : ∀ value : Fin 256, value.val < 128 →
      ((UInt8.ofNat value.val ||| 0x80) &&& 0x7f = UInt8.ofNat value.val ∧
        (UInt8.ofNat value.val ||| 0x80) &&& 0x80 ≠ 0 ∧
        UInt8.ofNat value.val &&& 0x7f = UInt8.ofNat value.val ∧ UInt8.ofNat value.val &&& 0x80 = 0) := by
    decide +kernel
  have small : (payload x).toNat < 128 := by
    change (x.toNat &&& (2 ^ 7 - 1)) % 256 < 128
    rw [Nat.and_two_pow_sub_one_eq_mod]
    omega
  simpa only [UInt8.ofNat_toNat] using table ⟨(payload x).toNat, (payload x).toNat_lt⟩ small

theorem payload_bit (x : BitVec 64) (k : ℕ) : (payload x).toBitVec.getLsbD k = (decide (k < 7) && x.getLsbD k) := by
  have ones : (0x7f#64).getLsbD k = decide (k < 7) := by
    by_cases small : k < 64
    · interval_cases k <;> rfl
    · rw [BitVec.getLsbD_of_ge _ _ (by omega), decide_eq_false (by omega)]
  rw [payload, BitVec.getLsbD_setWidth, BitVec.getLsbD_and, ones]
  by_cases small : k < 7
  · simp [small, show k < 8 by omega]
  · simp [small]

/-- The next seven bits go to their place. -/
theorem Holds.step {result v x : BitVec 64} {n : ℕ} (holds : Holds result v n)
    (next : ∀ k, n + k < 64 → x.getLsbD k = v.getLsbD (n + k)) :
    Holds (result ||| ((payload x).toBitVec.setWidth 64 <<< n)) v (n + 7) := by
  intro j
  rw [BitVec.getLsbD_or, holds, BitVec.getLsbD_shiftLeft, BitVec.getLsbD_setWidth, payload_bit]
  by_cases low : j < n
  · simp [low, Nat.lt_add_right 7 low]
  · by_cases inside : j < 64
    · rw [next (j - n) (by omega), show n + (j - n) = j by omega]
      simp [low, inside, show j - n < 7 ↔ j < n + 7 by omega, show j - n < 64 by omega]
    · rw [BitVec.getLsbD_of_ge v j (by omega)]
      simp [low, inside]

/-! ## The loop of the readers -/

/-- The byte ends its varint. -/
def isLast (byte : UInt8) : Bool := byte &&& 0x80 = 0

/-- The payload of a byte, in its place. -/
def place (result : Int64) (shift : ℕ) (byte : UInt8) : Int64 :=
  result ||| ((byte &&& 0x7f).toUInt64.toInt64 <<< Int64.ofNat shift)

/-- The payload of the last byte of a signed varint, with the sign. -/
def placeSigned (result : Int64) (shift : ℕ) (byte : UInt8) : Int64 :=
  if shift + 7 < 64 ∧ byte &&& 0x40 ≠ 0 then place result shift byte ||| ((-1) <<< Int64.ofNat (shift + 7)) else place result shift byte

section

variable (bounded : Bool) (final : Int64 → ℕ → UInt8 → Int64)

/-- A reader, which may give up at the eleventh byte. -/
def varint (result : Int64) (shift : ℕ) : List UInt8 → Option (Int64 × List UInt8)
  | [] => none
  | byte :: rest =>
      if bounded ∧ 64 ≤ shift then none
      else if isLast byte then some (final result shift byte, rest)
      else varint (place result shift byte) (shift + 7) rest

end

section

variable {bounded : Bool} {final : Int64 → ℕ → UInt8 → Int64} {result : Int64} {n fuel : ℕ} {rest : List UInt8}

theorem toBitVec_shiftLeft (value : Int64) (room : n < 64) : (value <<< Int64.ofNat n).toBitVec = value.toBitVec <<< n := by
  have amount : ∀ s : Fin 64, ((Int64.ofNat s.val).toBitVec.smod 64).toNat = s.val := by decide +kernel
  rw [Int64.toBitVec_shiftLeft, BitVec.shiftLeft_eq']
  exact congrArg (value.toBitVec <<< ·) (amount ⟨n, room⟩)

theorem varint_last (x : BitVec 64) (room : n < 64) :
    varint bounded final result n (payload x :: rest) = some (final result n (payload x), rest) := by
  rw [varint, if_neg (by omega), if_pos (by simpa [isLast] using (payload_masks x).2.2.2)]

theorem varint_more (x : BitVec 64) (room : n < 64) :
    varint bounded final result n ((payload x ||| 0x80) :: rest) = varint bounded final (place result n (payload x)) (n + 7) rest := by
  obtain ⟨masked, flag, masked', -⟩ := payload_masks x
  rw [varint, if_neg (by omega), if_neg (by simpa [isLast] using flag), place, masked, place, masked']

theorem Holds.place {v x : BitVec 64} (holds : Holds result.toBitVec v n) (room : n < 64)
    (next : ∀ k, n + k < 64 → x.getLsbD k = v.getLsbD (n + k)) : Holds (place result n (payload x)).toBitVec v (n + 7) := by
  rw [Bytecode.place, Int64.toBitVec_or, toBitVec_shiftLeft _ room, (payload_masks x).2.2.1]
  exact holds.step next

theorem varint_ends {v : Int64} {x : BitVec 64} (room : n < 64) (same : (final result n (payload x)).toBitVec = v.toBitVec) :
    varint bounded final result n (payload x :: rest) = some (v, rest) := by
  rw [varint_last x room, Int64.toBitVec_inj.mp same]

theorem uvarintBytes_succ (x : UInt64) : uvarintBytes (fuel + 1) x =
    if x >>> 7 ≠ 0 then (payload x.toBitVec ||| 0x80) :: uvarintBytes fuel (x >>> 7) else [payload x.toBitVec] := rfl

/-- Behind the first bytes of an unsigned varint, which hold its first bits. -/
theorem varint_uvarintBytes {x v : UInt64} (whole : n + 7 * fuel = 63) (shifted : x.toBitVec = v.toBitVec >>> n)
    (holds : Holds result.toBitVec v.toBitVec n) :
    varint bounded place result n (uvarintBytes fuel x ++ rest) = some (v.toInt64, rest) := by
  have step {result : Int64} {n : ℕ} {x : UInt64} (room : n < 64) (shifted : x.toBitVec = v.toBitVec >>> n)
      (holds : Holds result.toBitVec v.toBitVec n) : Holds (place result n (payload x.toBitVec)).toBitVec v.toBitVec (n + 7) :=
    holds.place room fun k _ => by rw [shifted, BitVec.getLsbD_ushiftRight]
  induction fuel generalizing result n x with
  | zero => exact varint_ends (v := v.toInt64) (by omega) ((step (by omega) shifted holds).eq fun j _ _ => by omega)
  | succ fuel ih =>
    have next := step (by omega) shifted holds
    have shifted' : (x >>> 7).toBitVec = v.toBitVec >>> (n + 7) := by
      change x.toBitVec >>> 7 = _
      rw [shifted, BitVec.shiftRight_add]
    rw [uvarintBytes_succ]
    split
    · exact (varint_more x.toBitVec (by omega)).trans (ih (by omega) shifted' next)
    · rename_i last
      refine varint_ends (v := v.toInt64) (by omega) (next.eq fun j high inside => ?_)
      have bit := BitVec.getLsbD_ushiftRight v.toBitVec (n + 7) (j - (n + 7))
      rw [← shifted', not_not.mp last, show n + 7 + (j - (n + 7)) = j by omega] at bit
      exact bit.symm.trans BitVec.getLsbD_zero

theorem ivarintBytes_succ (x : Int64) : ivarintBytes (fuel + 1) x =
    if (x >>> 7 = 0 ∧ ¬ payload x.toBitVec &&& 0x40 ≠ 0) ∨ (x >>> 7 = -1 ∧ payload x.toBitVec &&& 0x40 ≠ 0) then [payload x.toBitVec]
    else (payload x.toBitVec ||| 0x80) :: ivarintBytes fuel (x >>> 7) := rfl

/-- Behind the first bytes of a signed varint. -/
theorem varint_ivarintBytes {x v : Int64} (whole : n + 7 * fuel = 63) (shifted : x.toBitVec = v.toBitVec.sshiftRight n)
    (holds : Holds result.toBitVec v.toBitVec n) :
    varint bounded placeSigned result n (ivarintBytes fuel x ++ rest) = some (v, rest) := by
  have step {result : Int64} {n : ℕ} {x : Int64} (room : n < 64) (shifted : x.toBitVec = v.toBitVec.sshiftRight n)
      (holds : Holds result.toBitVec v.toBitVec n) : Holds (place result n (payload x.toBitVec)).toBitVec v.toBitVec (n + 7) :=
    holds.place room fun k inside => by
      rw [shifted, BitVec.getLsbD_sshiftRight]
      simp [inside, show k < 64 by omega]
  induction fuel generalizing result n x with
  | zero =>
    refine varint_ends (by omega) ?_
    rw [placeSigned, if_neg (by omega)]
    exact (step (by omega) shifted holds).eq fun j _ _ => by omega
  | succ fuel ih =>
    have next := step (by omega) shifted holds
    have shifted' : (x >>> 7).toBitVec = v.toBitVec.sshiftRight (n + 7) := by
      rw [BitVec.sshiftRight_add, ← shifted]
      rfl
    have bit (j : ℕ) (high : n + 7 ≤ j) (inside : j < 64) :
        (x >>> 7).toBitVec.getLsbD (j - (n + 7)) = v.toBitVec.getLsbD j := by
      rw [shifted', BitVec.getLsbD_sshiftRight]
      simp [show n + 7 + (j - (n + 7)) = j by omega, inside, show j - (n + 7) < 64 by omega]
    rw [ivarintBytes_succ]
    split
    · rename_i done
      refine varint_ends (by omega) ?_
      obtain ⟨zero, positive⟩ | ⟨ones, negative⟩ := done
      · rw [placeSigned, if_neg fun extend => positive extend.2]
        exact next.eq fun j high inside => by rw [← bit j high inside, zero]; simp
      · rw [placeSigned]
        split
        · rename_i extend
          rw [Int64.toBitVec_or, toBitVec_shiftLeft _ extend.1]
          refine BitVec.eq_of_getLsbD_eq fun j inside => ?_
          rw [BitVec.getLsbD_or, next, BitVec.getLsbD_shiftLeft]
          by_cases low : j < n + 7
          · simp [low]
          · rw [← bit j (by omega) inside, ones]
            simp [low, inside]
        · rename_i full
          exact next.eq fun j high inside => absurd ⟨by omega, negative⟩ full
    · exact (varint_more x.toBitVec (by omega)).trans (ih (by omega) shifted' next)

/-! ## The two readers -/

theorem toUInt64_place (byte : UInt8) (room : n < 64) :
    (place result n byte).toUInt64 = result.toUInt64 ||| ((byte &&& 0x7f).toUInt64 <<< UInt64.ofNat n) := by
  have amount : ∀ s : Fin 64, (UInt64.ofNat s.val % 64).toNat = s.val := by decide +kernel
  rw [place, Int64.toUInt64_or]
  congr 1
  apply UInt64.toBitVec_inj.mp
  refine (toBitVec_shiftLeft _ room).trans ?_
  change _ = BitVec.shiftLeft _ (UInt64.ofNat n % 64).toNat
  rw [amount ⟨n, room⟩]
  rfl

theorem readUvarintFrom_eq : (readUvarintFrom result.toUInt64 n rest).toOption =
    (varint true place result n rest).map fun read => (read.1.toUInt64, read.2) := by
  induction rest generalizing result n with
  | nil => rfl
  | cons byte rest ih =>
    simp only [readUvarintFrom, varint, isLast, true_and, decide_eq_true_eq]
    split
    · rfl
    · rw [← toUInt64_place byte (by omega)]
      split
      · rfl
      · exact ih

theorem readIvarintFrom_eq : (readIvarintFrom result n rest).toOption = varint true placeSigned result n rest := by
  induction rest generalizing result n with
  | nil => rfl
  | cons byte rest ih =>
    simp only [readIvarintFrom, varint, isLast, true_and, decide_eq_true_eq]
    split
    · rfl
    · split
      · rw [placeSigned]
        split <;> rfl
      · exact ih

theorem varint_writeUvarint (v : UInt64) : varint bounded place 0 0 (writeUvarint v ++ rest) = some (v.toInt64, rest) :=
  varint_uvarintBytes rfl (BitVec.ushiftRight_zero v.toBitVec).symm fun j => by simp

theorem varint_writeIvarint (v : Int64) : varint bounded placeSigned 0 0 (writeIvarint v ++ rest) = some (v, rest) :=
  varint_ivarintBytes rfl (BitVec.sshiftRight_zero).symm fun j => by simp

end

/-- Unsigned LEB128 is read back exactly, whatever follows it. -/
theorem reads_writeUvarint (v : UInt64) : Reads readUvarint (writeUvarint v) v :=
  .of_toOption fun _ => (@readUvarintFrom_eq 0 0 _).trans (by rw [varint_writeUvarint]; rfl)

/-- Signed LEB128 is read back exactly, whatever follows it. -/
theorem reads_writeIvarint (v : Int64) : Reads readIvarint (writeIvarint v) v :=
  .of_toOption fun _ => readIvarintFrom_eq.trans (varint_writeIvarint v)

/-! ## Fixed fields, bytes and text -/

/-- A bit pattern above the first `shift` bits adds to one below them. -/
private theorem or_disjoint (low high shift : ℕ) (below : low < 2 ^ shift) :
    low ||| high * 2 ^ shift = low + high * 2 ^ shift := by
  rw [Nat.or_comm, ← Nat.shiftLeft_eq, ← Nat.shiftLeft_add_eq_or_of_lt below, Nat.add_comm]

theorem reads_writeU8 (v : UInt8) : Reads readU8 (writeU8 v) v := fun _ => rfl

theorem reads_take (data : List UInt8) : Reads (take data.length) data data := by
  intro rest
  rw [take, if_pos (by simp), List.take_left, List.drop_left]

/-- A byte shifted to its place in a word of `width` bits loses nothing. -/
private theorem byte_place (byte shift width : ℕ) (small : byte < 2 ^ 8) (room : shift + 8 ≤ width) :
    byte * 2 ^ shift % 2 ^ width = byte * 2 ^ shift := by
  apply Nat.mod_eq_of_lt
  calc byte * 2 ^ shift < 2 ^ 8 * 2 ^ shift := Nat.mul_lt_mul_of_pos_right small (Nat.two_pow_pos _)
    _ = 2 ^ (8 + shift) := (Nat.pow_add ..).symm
    _ ≤ 2 ^ width := Nat.pow_le_pow_right (by decide) (by omega)

private theorem ofLeBytes_u32 (v : UInt32) :
    v.toUInt8.toUInt32 ||| ((v >>> 8).toUInt8.toUInt32 <<< 8) ||| ((v >>> 16).toUInt8.toUInt32 <<< 16) |||
      ((v >>> 24).toUInt8.toUInt32 <<< 24) = v := by
  have bound := v.toNat_lt
  apply UInt32.toNat_inj.mp
  simp only [UInt32.toNat_or, UInt32.toNat_shiftLeft, UInt8.toNat_toUInt32, UInt32.toNat_toUInt8,
    UInt32.toNat_shiftRight, UInt32.reduceToNat, Nat.reduceMod, Nat.shiftRight_eq_div_pow, Nat.shiftLeft_eq]
  simp (disch := omega) only [byte_place, or_disjoint]
  omega

private theorem ofLeBytes_u64 (v : UInt64) :
    v.toUInt8.toUInt64 ||| ((v >>> 8).toUInt8.toUInt64 <<< 8) ||| ((v >>> 16).toUInt8.toUInt64 <<< 16) |||
      ((v >>> 24).toUInt8.toUInt64 <<< 24) ||| ((v >>> 32).toUInt8.toUInt64 <<< 32) |||
      ((v >>> 40).toUInt8.toUInt64 <<< 40) ||| ((v >>> 48).toUInt8.toUInt64 <<< 48) |||
      ((v >>> 56).toUInt8.toUInt64 <<< 56) = v := by
  have bound := v.toNat_lt
  apply UInt64.toNat_inj.mp
  simp only [UInt64.toNat_or, UInt64.toNat_shiftLeft, UInt8.toNat_toUInt64, UInt64.toNat_toUInt8,
    UInt64.toNat_shiftRight, UInt64.reduceToNat, Nat.reduceMod, Nat.shiftRight_eq_div_pow, Nat.shiftLeft_eq]
  simp (disch := omega) only [byte_place, or_disjoint]
  omega

theorem reads_writeU32Le (v : UInt32) : Reads readU32Le (writeU32Le v) v := by
  intro rest
  change Except.ok (_, rest) = _
  rw [ofLeBytes_u32]

theorem reads_writeF64 (v : F64) : Reads readF64 (writeF64 v) v := by
  intro rest
  change Except.ok (F64.mk _, rest) = _
  rw [ofLeBytes_u64]

/-- A length below `2 ^ 64` survives its prefix. -/
theorem reads_length {length : ℕ} (short : length < 2 ^ 64) :
    Reads (UInt64.toNat <$> readUvarint) (writeUvarint (.ofNat length)) length := by
  simpa only [UInt64.toNat_ofNat_of_lt' short] using (reads_writeUvarint (.ofNat length)).map UInt64.toNat

theorem reads_writeBytes {data : List UInt8} (short : data.length < 2 ^ 64) :
    Reads readBytes (writeBytes data) data := by
  have reads := (reads_length short).bind (reads_take data)
  rw [map_eq_pure_bind, bind_assoc] at reads
  exact reads

private theorem reads_fromUtf8 (s : String) : Reads (fromUtf8 s.toByteArray.data.toList) [] s := by
  have valid : String.fromUTF8? ⟨s.toByteArray.data.toList.toArray⟩ = some s := by
    rw [Array.toArray_toList]
    exact dif_pos s.isValidUTF8
  rw [fromUtf8, valid]
  exact Reads.pure s

theorem reads_writeStr {s : String} (short : (writeStr s).length < 2 ^ 64) :
    Reads readStr (writeStr s) s := by
  have bytes : Reads readBytes (writeStr s) s.toByteArray.data.toList := by
    apply reads_writeBytes
    rw [writeStr, writeBytes, List.length_append] at short
    omega
  exact bytes.check (reads_fromUtf8 s)

theorem writeUvarint_ne_nil (v : UInt64) : writeUvarint v ≠ [] := by
  rw [writeUvarint, uvarintBytes_succ]
  split <;> exact List.cons_ne_nil _ _

end Thera.Bytecode
