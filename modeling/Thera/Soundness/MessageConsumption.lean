import Thera.Model.Lsp.JsonRpc
import Thera.Soundness.HttpRoundTrip

/-! # What a read takes off the stream

A read takes whole header blocks and one message off the front of the bytes that are still to come, unless the end of the message
overflows: then it takes nothing and the loop never ends. A body that is not UTF-8 is returned as the empty text.
-/

namespace Thera.Lsp

open Sdk

/-! ## Header blocks -/

/-- CRLF CRLF. -/
def terminator : Bytes := [13, 10, 13, 10]

/-- A block ends at its first CRLF CRLF. -/
def IsBlock (block : Bytes) : Prop := (∃ head, block = head ++ terminator) ∧ ∀ i, terminator <+: block.drop i → i + 4 = block.length

theorem byteAt_eq {buf : Bytes} {i : ℕ} {b : UInt8} : byteAt buf i = b.toNat ↔ buf[i]? = some b := by
  rw [byteAt]
  cases buf[i]? with
  | none =>
    refine ⟨fun same => ?_, fun same => nomatch same⟩
    have same : (-1 : ℤ) = b.toNat := same
    omega
  | some c =>
    show ((c.toNat : ℤ) = b.toNat) ↔ _
    rw [Nat.cast_inj, UInt8.toNat_inj, Option.some_inj]

theorem terminator_starts {buf : Bytes} :
    terminator <+: buf ↔ buf[0]? = some 13 ∧ buf[1]? = some 10 ∧ buf[2]? = some 13 ∧ buf[3]? = some 10 := by
  rw [List.prefix_iff_getElem?]
  constructor
  · intro all
    exact ⟨all 0 (by decide), all 1 (by decide), all 2 (by decide), all 3 (by decide)⟩
  · rintro ⟨first, second, third, fourth⟩ i inside
    obtain rfl | rfl | rfl | rfl : i = 0 ∨ i = 1 ∨ i = 2 ∨ i = 3 := by
      have : terminator.length = 4 := rfl
      omega
    all_goals assumption

theorem endsHeader_iff {buf : Bytes} {i : ℕ} : endsHeader buf i = true ↔ terminator <+: buf.drop i := by
  have first : byteAt buf i = 13 ↔ buf[i]? = some 13 := byteAt_eq (b := 13)
  have second : byteAt buf (i + 1) = 10 ↔ buf[i + 1]? = some 10 := byteAt_eq (b := 10)
  have third : byteAt buf (i + 2) = 13 ↔ buf[i + 2]? = some 13 := byteAt_eq (b := 13)
  have fourth : byteAt buf (i + 3) = 10 ↔ buf[i + 3]? = some 10 := byteAt_eq (b := 10)
  rw [terminator_starts, List.getElem?_drop, List.getElem?_drop, List.getElem?_drop, List.getElem?_drop, add_zero]
  simp only [endsHeader, Bool.and_eq_true, decide_eq_true_eq, first, second, third, fourth, and_assoc]

section

variable {block : Bytes}

theorem IsBlock.length_ge (isBlock : IsBlock block) : 4 ≤ block.length := by
  obtain ⟨⟨head, rfl⟩, _⟩ := isBlock
  rw [List.length_append]
  exact Nat.le_add_left _ _

/-- A block at the front of a buffer is its header. -/
theorem findHeaderEnd_block (isBlock : IsBlock block) (behind : Bytes) : findHeaderEnd (block ++ behind) = some block.length := by
  have long := isBlock.length_ge
  obtain ⟨⟨head, rfl⟩, first⟩ := isBlock
  have size : (head ++ terminator).length = head.length + 4 := List.length_append
  have found : (List.range ((head ++ terminator ++ behind).length - 3)).find? (endsHeader (head ++ terminator ++ behind)) = some head.length := by
    rw [List.find?_range_eq_some]
    refine ⟨?_, ?_, ?_⟩
    · rw [endsHeader_iff, List.append_assoc, List.drop_left]
      exact List.prefix_append _ _
    · rw [List.mem_range, List.length_append]
      omega
    · intro j before
      rw [Bool.not_eq_true', ← Bool.not_eq_true, endsHeader_iff]
      intro ends
      rw [List.drop_append_of_le_length (by omega)] at ends
      have inside : terminator <+: (head ++ terminator).drop j := by
        refine List.prefix_of_prefix_length_le ends (List.prefix_append _ _) ?_
        rw [List.length_drop]
        exact Nat.le_sub_of_add_le (by have : terminator.length = 4 := rfl; omega)
      have := first j inside
      omega
  rw [findHeaderEnd, found, size]
  rfl

end

/-- A head without a CR and the CRLF CRLF behind it are a block. -/
theorem isBlock_of_noCr {head : Bytes} (none : (13 : UInt8) ∉ head) : IsBlock (head ++ terminator) := by
  refine ⟨⟨head, rfl⟩, fun i ends => ?_⟩
  have first := (terminator_starts.mp ends).1
  have third := (terminator_starts.mp ends).2.2.1
  rw [List.getElem?_drop] at first third
  rw [List.length_append]
  have beyond : head.length ≤ i := by
    by_contra inside
    rw [add_zero, List.getElem?_append_left (by omega)] at first
    exact none (List.mem_of_getElem? first)
  rw [List.getElem?_append_right (by omega)] at first third
  have size : terminator.length = 4 := rfl
  have bound := (List.getElem?_eq_some_iff.mp third).1
  obtain same | next : i = head.length ∨ i = head.length + 1 := by omega
  · omega
  · rw [next] at first
    simp [terminator] at first

/-! ## One extraction -/

section

variable (lowering : Http.Lowering)

/-- A block without a usable length. -/
def Unusable (block : Bytes) : Prop := IsBlock block ∧ parseContentLength lowering (bytesToString block) = none

/-- Whole blocks without a usable length come off the front, and then a message of as many bytes as its block announces. -/
inductive Consumes : Bytes → Option Text → Bytes → Prop where
  | waits : Consumes buf none buf
  | skip (unusable : Unusable lowering block) (more : Consumes behind body rest) : Consumes (block ++ behind) body rest
  | message (isBlock : IsBlock block) (announced : parseContentLength lowering (bytesToString block) = some len)
      (exact : (bytesOf body).length = len.1) : Consumes (block ++ (bytesOf body ++ rest)) (some body) rest

/-- The first block with a usable length announces a message whose end is beyond 64 bits, or whose bytes are not UTF-8. -/
inductive Spoiled : Bytes → Prop where
  | skip (unusable : Unusable lowering block) (more : Spoiled behind) : Spoiled (block ++ behind)
  | here (isBlock : IsBlock block) (announced : parseContentLength lowering (bytesToString block) = some len)
      (bad : 2 ^ 63 ≤ block.length + len.1 ∨ ∃ bytes, bytes <+: behind ∧ bytes.length = len.1 ∧ textOf bytes = none) :
      Spoiled (block ++ behind)

end

variable {lowering : Http.Lowering}

theorem sliceBytes_front (front behind : Bytes) : sliceBytes (front ++ behind) 0 front.length = front := by
  rw [sliceBytes, Int.toNat_natCast, List.take_left]
  rfl

theorem sliceBytes_back (front behind : Bytes) : sliceBytes (front ++ behind) front.length (front ++ behind).length = behind := by
  rw [sliceBytes, Int.toNat_natCast, Int.toNat_natCast, List.take_length, List.drop_left]

theorem bytesToString_bytesOf (text : Text) : bytesToString (bytesOf text) = text := by
  rw [bytesToString, textOf_bytesOf, Option.getD_some]

/-- A header block without a usable length is dropped. -/
theorem extractLoop_block {block behind : Bytes} {fuel : ℕ} (isBlock : IsBlock block)
    (unusable : parseContentLength lowering (bytesToString block) = none) :
    extractLoop lowering (fuel + 1) (block ++ behind) = extractLoop lowering fuel behind := by
  rw [extractLoop, findHeaderEnd_block isBlock]
  dsimp only
  rw [sliceBytes_front, unusable]
  dsimp only
  rw [sliceBytes_back]

theorem extractLoop_short {part : Bytes} {fuel : ℕ} (none : findHeaderEnd part = none) : extractLoop lowering fuel part = ⟨.none, part⟩ := by
  cases fuel with
  | zero => rfl
  | succ fuel => rw [extractLoop, none]

theorem findHeaderEnd_some {buf : Bytes} {n : ℕ} (found : findHeaderEnd buf = some n) :
    ∃ block behind, IsBlock block ∧ buf = block ++ behind ∧ n = block.length := by
  obtain ⟨i, there, rfl⟩ := Option.map_eq_some_iff.mp found
  obtain ⟨ends, inside, first⟩ := List.find?_range_eq_some.mp there
  rw [List.mem_range] at inside
  obtain ⟨behind, same⟩ := endsHeader_iff.mp ends
  have whole : buf = buf.take i ++ terminator ++ behind := by
    rw [List.append_assoc, same, List.take_append_drop]
  have size : (buf.take i ++ terminator).length = i + 4 := by
    rw [List.length_append, List.length_take_of_le (by omega)]
    rfl
  refine ⟨buf.take i ++ terminator, behind, ⟨⟨_, rfl⟩, fun j there => ?_⟩, whole, size.symm⟩
  have long := there.length_le
  rw [List.length_drop, size] at long
  have size' : terminator.length = 4 := rfl
  obtain before | after : j < i ∨ i ≤ j := by omega
  · have early : terminator <+: buf.drop j := by
      rw [whole, List.drop_append_of_le_length (by omega)]
      exact there.trans (List.prefix_append _ _)
    have none := first j before
    rw [Bool.not_eq_true', ← Bool.not_eq_true, endsHeader_iff] at none
    exact absurd early none
  · omega

theorem parseContentLength_nonneg {lines : List Text} {len : I64} (parsed : lengthInLines lowering lines = some len) : 0 ≤ len.1 := by
  fun_induction lengthInLines lowering lines with
  | case1 => cases parsed
  | case2 line rest name value parts split named n read usable =>
    cases parsed
    exact usable
  | case3 => cases parsed
  | case4 => cases parsed
  | case5 => simp_all
  | case6 => simp_all

/-- A buffer starts with one block at most. -/
theorem IsBlock.unique {block block' behind behind' : Bytes} (isBlock : IsBlock block) (isBlock' : IsBlock block')
    (same : block ++ behind = block' ++ behind') : block = block' ∧ behind = behind' := by
  have first := findHeaderEnd_block isBlock behind
  rw [same, findHeaderEnd_block isBlock'] at first
  exact List.append_inj same (Option.some_inj.mp first).symm

/-- Behind a block with a usable length, all depends on where its message ends. -/
theorem extractLoop_usable {block behind : Bytes} {len : I64} {fuel : ℕ} (isBlock : IsBlock block)
    (announced : parseContentLength lowering (bytesToString block) = some len) :
    extractLoop lowering (fuel + 1) (block ++ behind) =
      if ((block ++ behind).length : ℤ) < (wrapI64 (block.length + len.1)).1 then ⟨none, block ++ behind⟩
      else ⟨some (bytesToString (sliceBytes (block ++ behind) block.length (wrapI64 (block.length + len.1)).1)),
        (block ++ behind).drop (wrapI64 (block.length + len.1)).1.toNat⟩ := by
  rw [extractLoop, findHeaderEnd_block isBlock]
  dsimp only
  rw [sliceBytes_front, announced]
  dsimp only
  have rest (stop : ℤ) : sliceBytes (block ++ behind) stop (block ++ behind).length = (block ++ behind).drop stop.toNat := by
    rw [sliceBytes, Int.toNat_natCast, List.take_length]
  rw [rest]

/-- Where the end does not overflow, the message is the announced number of bytes behind its block. -/
theorem extractLoop_arrived {block bytes rest : Bytes} {len : I64} {fuel : ℕ} (isBlock : IsBlock block)
    (announced : parseContentLength lowering (bytesToString block) = some len) (small : block.length + len.1 < 2 ^ 63)
    (size : bytes.length = len.1) :
    extractLoop lowering (fuel + 1) (block ++ (bytes ++ rest)) = ⟨some (bytesToString bytes), rest⟩ := by
  have stop : (wrapI64 (block.length + len.1)).1 = (block.length + bytes.length : ℕ) := by
    rw [wrapI64]
    push_cast
    omega
  rw [extractLoop_usable isBlock announced, stop, if_neg (by simp), sliceBytes, Int.toNat_natCast, Int.toNat_natCast,
    List.take_length_add_append, List.drop_left, List.drop_length_add_append, List.take_left, List.drop_left]

theorem extractLoop_consumes {buf : Bytes} {fuel : ℕ} (enough : buf.length ≤ fuel) (fine : ¬ Spoiled lowering buf) :
    Consumes lowering buf (extractLoop lowering fuel buf).body (extractLoop lowering fuel buf).rest := by
  induction fuel generalizing buf with
  | zero => exact .waits
  | succ fuel ih =>
    cases found : findHeaderEnd buf with
    | none =>
      rw [extractLoop_short found]
      exact .waits
    | some n =>
      obtain ⟨block, behind, isBlock, rfl, -⟩ := findHeaderEnd_some found
      have long := isBlock.length_ge
      rw [List.length_append] at enough
      cases announced : parseContentLength lowering (bytesToString block) with
      | none =>
        rw [extractLoop_block isBlock announced]
        exact .skip ⟨isBlock, announced⟩ (ih (by omega) fun bad => fine (.skip ⟨isBlock, announced⟩ bad))
      | some len =>
        have small : block.length + len.1 < 2 ^ 63 := by
          by_contra large
          exact fine (.here isBlock announced (.inl (by omega)))
        have nonneg := parseContentLength_nonneg announced
        obtain short | arrived := lt_or_ge (behind.length : ℤ) len.1
        · rw [extractLoop_usable isBlock announced, if_pos]
          · exact .waits
          · rw [wrapI64, List.length_append]
            push_cast
            omega
        · have size : (behind.take len.1.toNat).length = len.1 := by
            rw [List.length_take]
            omega
          cases read : textOf (behind.take len.1.toNat) with
          | none => exact absurd (.here isBlock announced (.inr ⟨_, List.take_prefix _ _, size, read⟩)) fine
          | some body =>
            have same := bytesOf_of_textOf read
            rw [← List.take_append_drop len.1.toNat behind, ← same, extractLoop_arrived isBlock announced small (same ▸ size),
              bytesToString_bytesOf]
            exact .message isBlock announced (same ▸ size)

/-! ## A loop of reads -/

/-- A message stays one when more arrives behind it. -/
theorem Consumes.arriving {buf rest : Bytes} {result : Option Text} {body : Text} (consumes : Consumes lowering buf result rest)
    (taken : result = some body) (more : Bytes) : Consumes lowering (buf ++ more) (some body) (rest ++ more) := by
  induction consumes with
  | waits => cases taken
  | skip unusable _ ih =>
    rw [List.append_assoc]
    exact .skip unusable (ih taken)
  | message isBlock announced exact =>
    cases taken
    rw [List.append_assoc, List.append_assoc]
    exact .message isBlock announced exact

/-- Blocks that were dropped stand before whatever comes next. -/
theorem Consumes.before {buf rest : Bytes} {result : Option Text} {goal : Bytes → Prop} (consumes : Consumes lowering buf result rest)
    (taken : result = none) (more : Bytes)
    (skip : ∀ block behind, Unusable lowering block → goal behind → goal (block ++ behind)) (next : goal (rest ++ more)) :
    goal (buf ++ more) := by
  induction consumes with
  | waits => exact next
  | skip unusable _ ih =>
    rw [List.append_assoc]
    exact skip _ _ unusable (ih taken next)
  | message => cases taken

theorem Spoiled.arriving {buf : Bytes} (spoiled : Spoiled lowering buf) (more : Bytes) : Spoiled lowering (buf ++ more) := by
  induction spoiled with
  | skip unusable _ ih =>
    rw [List.append_assoc]
    exact .skip unusable ih
  | here isBlock announced bad =>
    rw [List.append_assoc]
    refine .here isBlock announced (bad.imp_right ?_)
    rintro ⟨bytes, front, size, invalid⟩
    exact ⟨bytes, front.trans (List.prefix_append _ _), size, invalid⟩

/-- The bytes that a connection has not given out. -/
def Connection.stream (conn : Connection) : Bytes := conn.pending ++ conn.source.flatMap fun chunk => chunk.toOption.getD []

/-- A read that ends without a message has dropped blocks. -/
theorem Consumes.ends {buf rest : Bytes} {result : Option Text} (consumes : Consumes lowering buf result rest) (taken : result = none)
    (more : Bytes) : Consumes lowering (buf ++ more) none (rest ++ more) :=
  @Consumes.before _ _ _ _ (Consumes lowering · none _) consumes taken more (fun _ _ => .skip) .waits

theorem readLoop_consumes {pending : Bytes} {source : List (Except String Bytes)}
    (fine : ¬ Spoiled lowering (Connection.mk pending source).stream) :
    Consumes lowering (Connection.mk pending source).stream (readLoop lowering pending source).1
      (readLoop lowering pending source).2.stream := by
  have first := extractLoop_consumes le_rfl fun spoiled => fine (spoiled.arriving _)
  fun_induction readLoop lowering pending source with
  | case1 pending source ex body taken => exact first.arriving taken _
  | case2 pending ex none => exact first.ends none _
  | case3 pending ex none message source => exact first.ends none _
  | case4 pending ex none chunk source empty =>
    rw [List.length_eq_zero_iff] at empty
    cases empty
    exact first.ends none _
  | case5 pending ex none chunk source more ih =>
    rw [Connection.stream, List.flatMap_cons] at fine ⊢
    have fine' : ¬ Spoiled lowering (Connection.mk (ex.rest ++ chunk) source).stream := by
      rw [Connection.stream, List.append_assoc]
      exact fun spoiled => fine (first.before none _ (fun _ _ => .skip) spoiled)
    refine @Consumes.before _ _ _ _ (Consumes lowering · _ _) first none _ (fun _ _ => .skip) ?_
    have next := ih fine' (extractLoop_consumes le_rfl fun spoiled => fine' (spoiled.arriving _))
    rwa [Connection.stream, List.append_assoc] at next

end Thera.Lsp
