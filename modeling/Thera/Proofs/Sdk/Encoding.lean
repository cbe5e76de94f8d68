import Thera.Model.Sdk.Encoding
import Thera.Proofs.Sdk.Scan
import Thera.Proofs.Sdk.Text

/-! # Codecs on lists

The loops of the decoders, stated by the list that remains; the digits of the alphabets; and bytes regrouped into digits and back.
-/

namespace Thera.Sdk.Encoding

open Scanning

/-! ## Bits -/

theorem shiftLeft_or {x y : ℕ} (k : ℕ) (small : y < 2 ^ k) : x <<< k ||| y = x * 2 ^ k + y := by
  rw [← Nat.shiftLeft_add_eq_or_of_lt small, Nat.shiftLeft_eq]

theorem and_63 (n : ℕ) : n &&& 0x3F = n % 64 := Nat.and_two_pow_sub_one_eq_mod n 6

theorem and_255 (n : ℕ) : n &&& 0xFF = n % 256 := Nat.and_two_pow_sub_one_eq_mod n 8

theorem and_15 (n : ℕ) : n &&& 0xF = n % 16 := Nat.and_two_pow_sub_one_eq_mod n 4

/-! ## Code points -/

theorem codePoint_charOf {cp : ℤ} (nonneg : 0 ≤ cp) (ascii : cp < 128) : codePoint (charOf cp) = cp := by
  obtain ⟨n, rfl⟩ := Int.eq_ofNat_of_zero_le nonneg
  have checked : ∀ n : Fin 128, codePoint (charOf n.val) = n.val := by decide
  exact checked ⟨n, by omega⟩

variable {cps : List ℤ} {v b : ℕ}

theorem codePoints_textOfCodes (ascii : ∀ cp ∈ cps, 0 ≤ cp ∧ cp < 128) : codePoints (textOfCodes cps) = cps := by
  rw [codePoints, textOfCodes, List.map_map]
  exact (List.map_congr_left fun cp member => codePoint_charOf (ascii cp member).1 (ascii cp member).2).trans (List.map_id cps)

theorem fromList_ok {values : List ℕ} (bytes : ∀ v ∈ values, v ≤ 255) : fromList values = .ok (values.map UInt8.ofNat) := by
  have none : values.find? (· > 255) = none := by
    rw [List.find?_eq_none]
    intro v member
    have := bytes v member
    simp only [gt_iff_lt, decide_eq_true_eq]
    omega
  rw [fromList, none]

theorem fromList_toList (data : Bytes) : fromList (toList data) = .ok data := by
  have bytes : ∀ v ∈ toList data, v ≤ 255 := by
    intro v member
    obtain ⟨b, -, rfl⟩ := List.mem_map.mp member
    exact Nat.le_of_lt_succ b.toNat_lt
  rw [fromList_ok bytes, toList, List.map_map]
  congr 1
  exact (List.map_congr_left fun b _ => UInt8.ofNat_toNat).trans (List.map_id data)

/-! ## Decisions -/

/-- The run gives the value if the condition holds, and reports an error if not. -/
def Decides {A : Type} (accepts : Prop) (value : A) (run : Parse A) : Prop :=
  accepts ∧ run = .ok value ∨ ¬ accepts ∧ ∃ message, run = .error (.malformed message)

section

variable {A B : Type} {p q : Prop} {a : A} {b : B} {run : Parse A} {next : A → Parse B}

theorem Decides.congr (decides : Decides p a run) (same : q ↔ p) : Decides q a run := by
  rwa [Decides, same]

theorem Decides.bind (first : Decides p a run) (second : Decides q b (next a)) : Decides (p ∧ q) b (run >>= next) := by
  obtain ⟨accepts, rfl⟩ | ⟨refuses, message, rfl⟩ := first
  · exact second.congr (and_iff_right accepts)
  · exact .inr ⟨fun both => refuses both.1, message, rfl⟩

theorem Decides.guard {c : Prop} [Decidable c] {message : String} (decides : ¬ c → Decides p a run) :
    Decides (¬ c ∧ p) a (if c then .error (.malformed message) else run) := by
  split_ifs with refused
  · exact .inr ⟨fun both => both.1 refused, message, rfl⟩
  · exact (decides refused).congr (and_iff_right refused)

end

/-! ## Loops -/

section

variable {cps rest : List ℤ} {size i fuel : ℕ} {bytes : List ℕ} {group : ℕ → Parse (List ℕ)} (good : List ℤ → Prop)
  (out : List ℤ → List ℕ)

/-- The list that remains is decoded group by group; the first that is none is reported. -/
theorem decodeLoop_decides (positive : 0 < size) (good_nil : good []) (out_nil : out [] = [])
    (step : ∀ i chunk rest, chunk.length = size → At cps i (chunk ++ rest) → ∃ p decoded, Decides p decoded (group i) ∧
      (good (chunk ++ rest) ↔ p ∧ good rest) ∧ out (chunk ++ rest) = decoded ++ out rest)
    (here : At cps i rest) (whole : size ∣ rest.length) (enough : rest.length < fuel) :
    Decides (good rest) (bytes ++ out rest) (decodeLoop size cps.length group i bytes fuel) := by
  induction fuel generalizing i rest bytes with
  | zero => omega
  | succ fuel ih =>
    rw [decodeLoop]
    by_cases done : rest = []
    · subst done
      rw [if_neg here.end_.ge.not_gt, out_nil, List.append_nil]
      exact .inl ⟨good_nil, rfl⟩
    · have long : size ≤ rest.length := Nat.le_of_dvd (List.length_pos_iff.mpr done) whole
      obtain ⟨chunk, others, rfl, length⟩ : ∃ chunk others, rest = chunk ++ others ∧ chunk.length = size :=
        ⟨rest.take size, rest.drop size, (List.take_append_drop _ _).symm, by rw [List.length_take]; omega⟩
      have inside : i < cps.length := by
        have total := here.length
        omega
      obtain ⟨p, decoded, decides, accepted, split⟩ := step i chunk others length here
      have behind := here.append
      rw [List.length_append, length] at whole enough
      rw [length] at behind
      rw [if_pos inside, split, ← List.append_assoc]
      exact (decides.bind (ih behind ((Nat.dvd_add_right (dvd_refl size)).mp whole) (by omega))).congr accepted

end

/-! ## Base64 -/

/-- Four characters of a group; only the last group may be padded. -/
def Group (last : Prop) (c0 c1 c2 c3 : ℤ) : Prop :=
  0 ≤ b64Value c0 ∧ 0 ≤ b64Value c1 ∧
    (0 ≤ b64Value c2 ∧ 0 ≤ b64Value c3 ∨ last ∧ (0 ≤ b64Value c2 ∧ c3 = 61 ∨ c2 = 61 ∧ c3 = 61))

def groupOut (c0 c1 c2 c3 : ℤ) : List ℕ :=
  let first := ((b64Value c0).toNat <<< 2 ||| (b64Value c1).toNat >>> 4) &&& 0xFF
  let second := ((b64Value c1).toNat <<< 4 ||| (b64Value c2).toNat >>> 2) &&& 0xFF
  let third := ((b64Value c2).toNat <<< 6 ||| (b64Value c3).toNat) &&& 0xFF
  if c2 = 61 then [first] else if c3 = 61 then [first, second] else [first, second, third]

/-- The group at a position, once its four characters are read. -/
theorem base64Group_eq {rest : List ℤ} {i : ℕ} {c0 c1 c2 c3 : ℤ} (here : At cps i (c0 :: c1 :: c2 :: c3 :: rest)) :
    base64Group cps i =
      if b64Value c0 < 0 ∨ b64Value c1 < 0 then .error (.malformed "base64_decode: invalid character")
      else if (c2 = 61 ∨ c3 = 61) ∧ rest ≠ [] then .error (.malformed "base64_decode: misplaced padding")
      else if c2 = 61 ∧ c3 ≠ 61 then .error (.malformed "base64_decode: invalid padding")
      else if c2 ≠ 61 ∧ b64Value c2 < 0 then .error (.malformed "base64_decode: invalid character")
      else if c2 ≠ 61 ∧ c3 ≠ 61 ∧ b64Value c3 < 0 then .error (.malformed "base64_decode: invalid character")
      else .ok (groupOut c0 c1 c2 c3) := by
  have stop : i + 4 ≠ cps.length ↔ rest ≠ [] := by
    have length := here.length
    simp only [List.length_cons] at length
    rw [← List.length_pos_iff]
    omega
  have run₂ : codeAt cps (i + 2) = .ok c2 := codeAt_at here.step.step
  have run₃ : codeAt cps (i + 3) = .ok c3 := codeAt_at here.step.step.step
  simp only [base64Group, codeAt_at here, codeAt_at here.step, run₂, run₃, ok_bind, stop, groupOut, Bool.or_eq_true, decide_eq_true_eq]
  by_cases pad2 : c2 = 61
  · simp [pad2]
    rfl
  · by_cases pad3 : c3 = 61
    · simp [pad2, pad3]
      rfl
    · simp [pad2, pad3]
      rfl

theorem base64Group_spec {rest : List ℤ} {i : ℕ} {c0 c1 c2 c3 : ℤ} (here : At cps i (c0 :: c1 :: c2 :: c3 :: rest)) :
    Decides (Group (rest = []) c0 c1 c2 c3) (groupOut c0 c1 c2 c3) (base64Group cps i) := by
  have equals : b64Value 61 < 0 := by decide
  rw [base64Group_eq here]
  unfold Group
  split_ifs with bad misplaced invalid bad₂ bad₃
  · exact .inr ⟨by omega, _, rfl⟩
  · exact .inr ⟨by grind, _, rfl⟩
  · exact .inr ⟨by grind, _, rfl⟩
  · exact .inr ⟨by grind, _, rfl⟩
  · exact .inr ⟨by grind, _, rfl⟩
  · exact .inl ⟨by grind, rfl⟩

/-- Groups of four, all but the last without padding. -/
def Grouped : List ℤ → Prop
  | [] => True
  | c0 :: c1 :: c2 :: c3 :: rest => Group (rest = []) c0 c1 c2 c3 ∧ Grouped rest
  | _ => False

def groupedOut : List ℤ → List ℕ
  | c0 :: c1 :: c2 :: c3 :: rest => groupOut c0 c1 c2 c3 ++ groupedOut rest
  | _ => []

theorem Grouped.dvd (grouped : Grouped cps) : 4 ∣ cps.length := by
  induction cps using Grouped.induct with
  | case1 => exact dvd_zero 4
  | case2 c0 c1 c2 c3 rest ih =>
    have rest_dvd := ih grouped.2
    simp only [List.length_cons]
    omega
  | case3 rest nonempty short =>
    rw [Grouped] at grouped
    · exact grouped.elim
    · exact nonempty
    · exact short

theorem groupOut_le {c0 c1 c2 c3 : ℤ} : ∀ v ∈ groupOut c0 c1 c2 c3, v ≤ 255 := by
  have masked (n : ℕ) : n &&& 0xFF ≤ 255 := Nat.and_le_right
  intro v member
  unfold groupOut at member
  dsimp only at member
  split_ifs at member <;> simp only [List.mem_cons, List.not_mem_nil, or_false] at member
  · rw [member]
    exact masked _
  · obtain rfl | rfl := member <;> exact masked _
  · obtain rfl | rfl | rfl := member <;> exact masked _

theorem groupedOut_le : ∀ v ∈ groupedOut cps, v ≤ 255 := by
  induction cps using groupedOut.induct with
  | case1 c0 c1 c2 c3 rest ih =>
    intro v member
    obtain first | later := List.mem_append.mp member
    · exact groupOut_le v first
    · exact ih v later
  | case2 cps short =>
    intro v member
    rw [groupedOut] at member
    · exact absurd member List.not_mem_nil
    · exact short

theorem base64Loop_decides (whole : 4 ∣ cps.length) :
    Decides (Grouped cps) (groupedOut cps) (decodeLoop 4 cps.length (base64Group cps) 0 [] (cps.length + 1)) := by
  refine decodeLoop_decides Grouped groupedOut (by decide) trivial rfl ?_ (At.start cps) whole (by omega)
  intro i chunk rest length here
  obtain ⟨c0, c1, c2, c3, rfl⟩ := List.length_eq_four.mp length
  exact ⟨_, _, base64Group_spec here, Iff.rfl, rfl⟩

/-- Characters of the alphabet, and at most two signs of padding at the end. -/
def Padded (cps : List ℤ) : Prop :=
  ∃ body pad, cps = body ++ List.replicate pad 61 ∧ pad ≤ 2 ∧ ∀ c ∈ body, 0 ≤ b64Value c

theorem Grouped.padded (grouped : Grouped cps) : Padded cps := by
  induction cps using Grouped.induct with
  | case1 => exact ⟨[], 0, rfl, by decide, fun c member => absurd member List.not_mem_nil⟩
  | case2 c0 c1 c2 c3 rest ih =>
    obtain ⟨⟨value₀, value₁, ⟨value₂, value₃⟩ | ⟨rfl, ⟨value₂, rfl⟩ | ⟨rfl, rfl⟩⟩⟩, others⟩ := grouped
    · obtain ⟨body, pad, rfl, pad_le, values⟩ := ih others
      exact ⟨c0 :: c1 :: c2 :: c3 :: body, pad, rfl, pad_le, by simp_all⟩
    · exact ⟨[c0, c1, c2], 1, rfl, by decide, by simp_all⟩
    · exact ⟨[c0, c1], 2, rfl, by decide, by simp_all⟩
  | case3 rest nonempty short =>
    rw [Grouped] at grouped
    · exact grouped.elim
    · exact nonempty
    · exact short

theorem grouped_of_padded (whole : 4 ∣ cps.length) (padded : Padded cps) : Grouped cps := by
  obtain ⟨body, pad, rfl, pad_le, values⟩ := padded
  induction body using Grouped.induct with
  | case1 =>
    obtain rfl : pad = 0 := by
      rw [List.nil_append, List.length_replicate] at whole
      omega
    trivial
  | case2 c0 c1 c2 c3 rest ih =>
    simp only [List.forall_mem_cons] at values
    obtain ⟨value₀, value₁, value₂, value₃, others⟩ := values
    refine ⟨⟨value₀, value₁, .inl ⟨value₂, value₃⟩⟩, ih ?_ others⟩
    simp only [List.cons_append, List.length_cons] at whole
    omega
  | case3 body nonempty short =>
    match body, nonempty, short with
    | [c0], _, _ =>
      simp only [List.length_append, List.length_replicate, List.length_singleton] at whole
      omega
    | [c0, c1], _, _ =>
      simp only [List.length_append, List.length_replicate, List.length_cons, List.length_nil] at whole
      obtain rfl : pad = 2 := by omega
      simp only [List.forall_mem_cons] at values
      exact ⟨⟨values.1, values.2.1, .inr ⟨rfl, .inr ⟨rfl, rfl⟩⟩⟩, trivial⟩
    | [c0, c1, c2], _, _ =>
      simp only [List.length_append, List.length_replicate, List.length_cons, List.length_nil] at whole
      obtain rfl : pad = 1 := by omega
      simp only [List.forall_mem_cons] at values
      exact ⟨⟨values.1, values.2.1, .inr ⟨rfl, .inl ⟨values.2.2.1, rfl⟩⟩⟩, trivial⟩
    | c0 :: c1 :: c2 :: c3 :: rest, _, short => exact (short c0 c1 c2 c3 rest rfl).elim

/-! ### Bytes to digits and back -/

theorem b64Value_b64Char (small : v < 64) : b64Value (b64Char v) = v := by
  have checked : ∀ v : Fin 64, b64Value (b64Char v.val) = v.val := by decide
  exact checked ⟨v, small⟩

theorem b64Char_ascii (small : v < 64) : 0 ≤ b64Char v ∧ b64Char v < 128 ∧ b64Char v ≠ 61 := by
  have checked : ∀ v : Fin 64, 0 ≤ b64Char v.val ∧ b64Char v.val < 128 ∧ b64Char v.val ≠ 61 := by decide
  exact checked ⟨v, small⟩

/-- Two digits, shifted together, give a byte. -/
theorem regroup {w k l : ℕ} (v_lt : v < 64) (w_lt : w < 64) (fits : w / 2 ^ l < 2 ^ k) :
    ((b64Value (b64Char v)).toNat <<< k ||| (b64Value (b64Char w)).toNat >>> l) &&& 0xFF = (v * 2 ^ k + w / 2 ^ l) % 256 := by
  rw [b64Value_b64Char v_lt, b64Value_b64Char w_lt, Int.toNat_natCast, Int.toNat_natCast, Nat.shiftRight_eq_div_pow,
    shiftLeft_or k fits, and_255]

theorem pair_eq {a : ℕ} (b_lt : b < 256) : a <<< 16 ||| b <<< 8 = a * 65536 + b * 256 := by
  have fits : b <<< 8 < 2 ^ 16 := by
    rw [Nat.shiftLeft_eq]
    omega
  rw [shiftLeft_or 16 fits, Nat.shiftLeft_eq]
  norm_num

theorem triple_eq {a c : ℕ} (b_lt : b < 256) (c_lt : c < 256) :
    a <<< 16 ||| b <<< 8 ||| c = a * 65536 + b * 256 + c := by
  have shifted : a * 65536 + b * 256 = (a * 256 + b) <<< 8 := by
    rw [Nat.shiftLeft_eq]
    omega
  rw [pair_eq b_lt, shifted, shiftLeft_or 8 c_lt, Nat.shiftLeft_eq]

section

variable {v0 v1 v2 v3 : ℕ} (v0_lt : v0 < 64) (v1_lt : v1 < 64) (v2_lt : v2 < 64)

theorem digit_value {v : ℕ} (v_lt : v < 64) : 0 ≤ b64Value (b64Char v) := by
  rw [b64Value_b64Char v_lt]
  exact Int.natCast_nonneg v

theorem second_byte (v1_lt : v1 < 64) (v2_lt : v2 < 64) : ((b64Value (b64Char v1)).toNat <<< 4 ||| (b64Value (b64Char v2)).toNat >>> 2) &&& 0xFF =
    (v1 * 16 + v2 / 4) % 256 := by
  rw [regroup v1_lt v2_lt (by omega)]
  norm_num

include v0_lt v1_lt

theorem first_byte : ((b64Value (b64Char v0)).toNat <<< 2 ||| (b64Value (b64Char v1)).toNat >>> 4) &&& 0xFF = v0 * 4 + v1 / 16 := by
  rw [regroup v0_lt v1_lt (by omega)]
  norm_num
  omega

theorem group_one {last : Prop} (here : last) : Group last (b64Char v0) (b64Char v1) 61 61 ∧
    groupOut (b64Char v0) (b64Char v1) 61 61 = [v0 * 4 + v1 / 16] :=
  ⟨⟨digit_value v0_lt, digit_value v1_lt, .inr ⟨here, .inr ⟨rfl, rfl⟩⟩⟩, by rw [groupOut, if_pos rfl, first_byte v0_lt v1_lt]⟩

include v2_lt

theorem group_two {last : Prop} (here : last) : Group last (b64Char v0) (b64Char v1) (b64Char v2) 61 ∧
    groupOut (b64Char v0) (b64Char v1) (b64Char v2) 61 = [v0 * 4 + v1 / 16, (v1 * 16 + v2 / 4) % 256] := by
  refine ⟨⟨digit_value v0_lt, digit_value v1_lt, .inr ⟨here, .inl ⟨digit_value v2_lt, rfl⟩⟩⟩, ?_⟩
  rw [groupOut, if_neg (b64Char_ascii v2_lt).2.2, if_pos rfl, first_byte v0_lt v1_lt, second_byte v1_lt v2_lt]

theorem group_three {last : Prop} (v3_lt : v3 < 64) : Group last (b64Char v0) (b64Char v1) (b64Char v2) (b64Char v3) ∧
    groupOut (b64Char v0) (b64Char v1) (b64Char v2) (b64Char v3) =
      [v0 * 4 + v1 / 16, (v1 * 16 + v2 / 4) % 256, (v2 * 64 + v3) % 256] := by
  have third := regroup (l := 0) v2_lt v3_lt (show v3 / 2 ^ 0 < 2 ^ 6 by omega)
  rw [Nat.shiftRight_zero, pow_zero, Nat.div_one] at third
  refine ⟨⟨digit_value v0_lt, digit_value v1_lt, .inl ⟨digit_value v2_lt, digit_value v3_lt⟩⟩, ?_⟩
  rw [groupOut, if_neg (b64Char_ascii v2_lt).2.2, if_neg (b64Char_ascii v3_lt).2.2, first_byte v0_lt v1_lt,
    second_byte v1_lt v2_lt, third]
  norm_num

end

theorem base64Codes_spec {bytes : List ℕ} (small : ∀ b ∈ bytes, b < 256) :
    Grouped (base64Codes bytes) ∧ groupedOut (base64Codes bytes) = bytes ∧ ∀ cp ∈ base64Codes bytes, 0 ≤ cp ∧ cp < 128 := by
  have ascii {v : ℕ} (v_lt : v < 64) : 0 ≤ b64Char v ∧ b64Char v < 128 := ⟨(b64Char_ascii v_lt).1, (b64Char_ascii v_lt).2.1⟩
  have digit (n : ℕ) : n % 64 < 64 := Nat.mod_lt n (by decide)
  induction bytes using base64Codes.induct with
  | case1 a b c rest ih =>
    simp only [List.forall_mem_cons] at small
    obtain ⟨a_lt, b_lt, c_lt, others⟩ := small
    obtain ⟨grouped, out, codes⟩ := ih others
    simp only [base64Codes, triple_eq b_lt c_lt, and_63, List.forall_mem_cons]
    obtain ⟨group, decoded⟩ := @group_three _ _ _ _ (digit _) (digit _) (digit _) (base64Codes rest = []) (digit _)
    refine ⟨⟨group, grouped⟩, ?_, ascii (digit _), ascii (digit _), ascii (digit _), ascii (digit _), codes⟩
    rw [groupedOut, decoded, out]
    norm_num
    omega
  | case2 a b =>
    simp only [List.forall_mem_cons] at small
    obtain ⟨a_lt, b_lt, -⟩ := small
    simp only [base64Codes, pair_eq b_lt, and_63, List.forall_mem_cons]
    obtain ⟨group, decoded⟩ := group_two (digit _) (digit _) (digit _) rfl
    refine ⟨⟨group, trivial⟩, ?_, ascii (digit _), ascii (digit _), ascii (digit _), by decide, by simp⟩
    rw [groupedOut, decoded, groupedOut.eq_def]
    norm_num
    omega
  | case3 a =>
    simp only [List.forall_mem_cons] at small
    obtain ⟨a_lt, -⟩ := small
    simp only [base64Codes, Nat.shiftLeft_eq, and_63, List.forall_mem_cons]
    obtain ⟨group, decoded⟩ := group_one (digit _) (digit _) rfl
    refine ⟨⟨group, trivial⟩, ?_, ascii (digit _), ascii (digit _), by decide, by decide, by simp⟩
    rw [groupedOut, decoded, groupedOut.eq_def]
    norm_num
    omega
  | case4 => exact ⟨trivial, rfl, fun cp member => absurd member List.not_mem_nil⟩

/-! ## Hex -/

theorem hexPair_eq {message : String} {rest : List ℤ} {i : ℕ} {c0 c1 : ℤ} (here : At cps i (c0 :: c1 :: rest)) :
    hexPair message cps i = if hexValue c0 < 0 ∨ hexValue c1 < 0 then .error (.malformed message)
      else .ok [(hexValue c0).toNat <<< 4 ||| (hexValue c1).toNat] := by
  rw [hexPair, codeAt_at here, ok_bind, codeAt_at here.step, ok_bind]
  rfl

def AllHex (cps : List ℤ) : Prop := ∀ c ∈ cps, 0 ≤ hexValue c

def hexOut : List ℤ → List ℕ
  | c0 :: c1 :: rest => ((hexValue c0).toNat <<< 4 ||| (hexValue c1).toNat) :: hexOut rest
  | _ => []

theorem hexLoop_decides {message : String} (whole : 2 ∣ cps.length) :
    Decides (AllHex cps) (hexOut cps) (decodeLoop 2 cps.length (hexPair message cps) 0 [] (cps.length + 1)) := by
  refine decodeLoop_decides AllHex hexOut (by decide) (by simp [AllHex]) rfl ?_ (At.start cps) whole (by omega)
  intro i chunk rest length here
  obtain ⟨c0, c1, rfl⟩ := List.length_eq_two.mp length
  refine ⟨¬ (hexValue c0 < 0 ∨ hexValue c1 < 0) ∧ True, [_], ?_, by simp [AllHex, and_assoc], rfl⟩
  rw [hexPair_eq here]
  exact .guard fun _ => .inl ⟨trivial, rfl⟩

theorem hexValue_range (cp : ℤ) : hexValue cp < 16 := by
  unfold hexValue hexDigitValue isDigit
  split_ifs <;> simp_all <;> omega

theorem hexOut_le : ∀ v ∈ hexOut cps, v ≤ 255 := by
  induction cps using hexOut.induct with
  | case1 c0 c1 rest ih =>
    intro v member
    obtain rfl | later := List.mem_cons.mp member
    · have hi := hexValue_range c0
      have lo := hexValue_range c1
      rw [shiftLeft_or 4 (by omega)]
      omega
    · exact ih v later
  | case2 cps short =>
    intro v member
    rw [hexOut] at member
    · exact absurd member List.not_mem_nil
    · exact short

theorem hexValue_hexDigit (small : v < 16) (upper : Bool) : hexValue (hexDigit v upper) = v := by
  have checked : ∀ (upper : Bool) (v : Fin 16), hexValue (hexDigit v.val upper) = v.val := by decide
  exact checked upper ⟨v, small⟩

theorem hexDigit_ascii (small : v < 16) (upper : Bool) : 0 ≤ hexDigit v upper ∧ hexDigit v upper < 128 := by
  have checked : ∀ (upper : Bool) (v : Fin 16), 0 ≤ hexDigit v.val upper ∧ hexDigit v.val upper < 128 := by decide
  exact checked upper ⟨v, small⟩

theorem nibbles_lt (b : ℕ) : b >>> 4 &&& 0xF < 16 ∧ b &&& 0xF < 16 := by
  rw [and_15, and_15]
  exact ⟨Nat.mod_lt _ (by decide), Nat.mod_lt _ (by decide)⟩

/-- The two digits of a byte give it back. -/
theorem hex_byte (small : b < 256) (upper : Bool) :
    (hexValue (hexDigit (b >>> 4 &&& 0xF) upper)).toNat <<< 4 ||| (hexValue (hexDigit (b &&& 0xF) upper)).toNat = b := by
  obtain ⟨high, low⟩ := nibbles_lt b
  rw [hexValue_hexDigit high, hexValue_hexDigit low, Int.toNat_natCast, Int.toNat_natCast, shiftLeft_or 4 low, and_15, and_15]
  omega

theorem hexCodes_digits {upper : Bool} {cp : ℤ} (member : cp ∈ hexCodes upper b) :
    0 ≤ hexValue cp ∧ 0 ≤ cp ∧ cp < 128 := by
  obtain ⟨high, low⟩ := nibbles_lt b
  simp only [hexCodes, List.mem_cons, List.not_mem_nil, or_false] at member
  obtain rfl | rfl := member
  · exact ⟨by rw [hexValue_hexDigit high]; omega, hexDigit_ascii high upper⟩
  · exact ⟨by rw [hexValue_hexDigit low]; omega, hexDigit_ascii low upper⟩

theorem hexCodes_spec {bytes : List ℕ} (small : ∀ b ∈ bytes, b < 256) :
    2 ∣ (bytes.flatMap (hexCodes false)).length ∧ hexOut (bytes.flatMap (hexCodes false)) = bytes := by
  induction bytes with
  | nil => exact ⟨dvd_zero 2, rfl⟩
  | cons b bytes ih =>
    obtain ⟨even, out⟩ := ih fun c member => small c (List.mem_cons_of_mem b member)
    constructor
    · rw [List.flatMap_cons, List.length_append, show (hexCodes false b).length = 2 from rfl]
      omega
    · rw [List.flatMap_cons]
      show ((hexValue (hexDigit (b >>> 4 &&& 0xF) false)).toNat <<< 4 ||| (hexValue (hexDigit (b &&& 0xF) false)).toNat) ::
        hexOut (bytes.flatMap (hexCodes false)) = _
      rw [hex_byte (small b List.mem_cons_self), out]

/-! ## Percent encoding -/

section

variable {cps rest : List ℤ} {i fuel : ℕ} {bytes : List ℕ} {c : ℤ}

theorem urlLoop_step (here : At cps i (c :: rest)) :
    urlLoop cps i bytes (fuel + 1) =
      if c = 37 then
        if i + 2 ≥ cps.length then .error (.malformed "url_decode: truncated percent-escape")
        else do
          let byte ← hexPair "url_decode: invalid percent-escape" cps (i + 1)
          urlLoop cps (i + 3) (bytes ++ byte) fuel
      else if c ≤ 127 then urlLoop cps (i + 1) (bytes ++ [c.toNat]) fuel
      else urlLoop cps (i + 1) (bytes ++ toList (bytesOf (textOfCodes [c]))) fuel := by
  rw [urlLoop, if_pos here.lt, codeAt_at here, ok_bind]

theorem urlLoop_end (here : At cps i []) : urlLoop cps i bytes (fuel + 1) = .ok bytes := by
  rw [urlLoop, if_neg here.end_.ge.not_gt]
  rfl

theorem toList_le {data : Bytes} : ∀ v ∈ toList data, v ≤ 255 := by
  intro v member
  obtain ⟨b, -, rfl⟩ := List.mem_map.mp member
  exact Nat.le_of_lt_succ b.toNat_lt

/-- The loop ends with bytes, or with an error that names the escape. -/
theorem urlLoop_answers (here : At cps i rest) (enough : rest.length < fuel) (small : ∀ v ∈ bytes, v ≤ 255) :
    (∃ out, urlLoop cps i bytes fuel = .ok out ∧ ∀ v ∈ out, v ≤ 255) ∨ ∃ message, urlLoop cps i bytes fuel = .error (.malformed message) := by
  induction fuel generalizing i rest bytes with
  | zero => omega
  | succ fuel ih =>
    have grow {more : List ℕ} (bounded : ∀ v ∈ more, v ≤ 255) : ∀ v ∈ bytes ++ more, v ≤ 255 := fun v member =>
      (List.mem_append.mp member).elim (small v) (bounded v)
    cases rest with
    | nil => exact .inl ⟨bytes, urlLoop_end here, small⟩
    | cons c rest =>
      rw [List.length_cons] at enough
      rw [urlLoop_step here]
      by_cases escape : c = 37
      · rw [if_pos escape]
        split
        · exact .inr ⟨_, rfl⟩
        · rename_i long
          have length := here.length
          obtain ⟨c0, c1, rest, rfl⟩ : ∃ c0 c1 rest', rest = c0 :: c1 :: rest' := by
            match rest with
            | [] | [_] =>
              simp only [List.length_cons, List.length_nil] at length
              omega
            | c0 :: c1 :: rest' => exact ⟨c0, c1, rest', rfl⟩
          rw [hexPair_eq here.step]
          split
          · exact .inr ⟨_, rfl⟩
          · rename_i digits
            have hi := hexValue_range c0
            have lo := hexValue_range c1
            rw [ok_bind]
            refine ih here.step.step.step (by simp only [List.length_cons] at enough; omega) (grow ?_)
            intro v member
            rw [List.mem_singleton.mp member, shiftLeft_or 4 (by omega)]
            omega
      · rw [if_neg escape]
        split
        · refine ih here.step (by omega) (grow ?_)
          intro v member
          rw [List.mem_singleton.mp member]
          omega
        · exact ih here.step (by omega) (grow toList_le)

theorem isUnreserved_ascii {b : ℕ} (unreserved : isUnreserved b = true) : (b : ℤ) ≠ 37 ∧ b ≤ 127 := by
  simp only [isUnreserved, isAlphanumeric, isUpper, isLower, isDigit, Bool.or_eq_true, Bool.and_eq_true, decide_eq_true_eq] at unreserved
  omega

theorem urlLoop_codes {more : List ℕ} (here : At cps i (more.flatMap urlCodes)) (enough : more.length < fuel)
    (small : ∀ b ∈ more, b < 256) : urlLoop cps i bytes fuel = .ok (bytes ++ more) := by
  induction more generalizing i bytes fuel with
  | nil =>
    obtain ⟨fuel, rfl⟩ : ∃ k, fuel = k + 1 := ⟨fuel - 1, by omega⟩
    rw [urlLoop_end here, List.append_nil]
  | cons b more ih =>
    obtain ⟨fuel, rfl⟩ : ∃ k, fuel = k + 1 := ⟨fuel - 1, by omega⟩
    have enough' : more.length < fuel := by
      rw [List.length_cons] at enough
      omega
    have others : ∀ b ∈ more, b < 256 := fun c member => small c (List.mem_cons_of_mem b member)
    have shape : bytes ++ b :: more = bytes ++ [b] ++ more := by rw [List.append_assoc, List.singleton_append]
    rw [List.flatMap_cons, urlCodes] at here
    rw [shape]
    split at here
    · rename_i unreserved
      obtain ⟨other, ascii⟩ := isUnreserved_ascii unreserved
      rw [urlLoop_step here, if_neg other, if_pos (by omega), Int.toNat_natCast]
      exact ih here.step enough' others
    · have length := here.length
      have digits : ¬ (hexValue (hexDigit (b >>> 4 &&& 0xF) true) < 0 ∨ hexValue (hexDigit (b &&& 0xF) true) < 0) := by
        obtain ⟨high, low⟩ := nibbles_lt b
        rw [hexValue_hexDigit high, hexValue_hexDigit low]
        omega
      simp only [hexCodes, List.cons_append, List.nil_append, List.length_cons] at here length
      rw [urlLoop_step here, if_pos rfl, if_neg (by omega), hexPair_eq here.step, if_neg digits, ok_bind,
        hex_byte (small b List.mem_cons_self)]
      exact ih here.step.step.step enough' others

end

theorem urlCodes_ascii {cp : ℤ} (member : cp ∈ urlCodes b) : 0 ≤ cp ∧ cp < 128 := by
  unfold urlCodes at member
  split at member
  · rename_i unreserved
    obtain ⟨-, ascii⟩ := isUnreserved_ascii unreserved
    rw [List.mem_singleton.mp member]
    omega
  · obtain rfl | digit := List.mem_cons.mp member
    · decide
    · exact (hexCodes_digits digit).2

theorem urlCodes_length (b : ℕ) : 1 ≤ (urlCodes b).length := by
  unfold urlCodes
  split <;> simp

end Thera.Sdk.Encoding
