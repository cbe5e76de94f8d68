import Thera.Model.Lsp.Paths
import Thera.Proofs.Sdk.Encoding

/-! # Text encodings are exact

Each decoder gives back what its encoder was given, accepts the texts of its alphabet and no others, and answers every text.
-/

namespace Thera.Sdk.Encoding

open Scanning

/-! ## Accepted texts -/

def b64Alphabet : Text := "ABCDEFGHIJKLMNOPQRSTUVWXYZabcdefghijklmnopqrstuvwxyz0123456789+/".toList

def hexAlphabet : Text := "0123456789abcdefABCDEF".toList

/-- A multiple of four characters of the alphabet, with at most two `=`, all at the end. -/
def Base64Text (s : Text) : Prop :=
  4 ∣ s.length ∧ ∃ body pad, s = body ++ List.replicate pad '=' ∧ pad ≤ 2 ∧ ∀ c ∈ body, c ∈ b64Alphabet

def HexText (s : Text) : Prop := 2 ∣ s.length ∧ ∀ c ∈ s, c ∈ hexAlphabet

/-- A test of characters that only some of ASCII pass, as a set. -/
theorem mem_iff_of_ascii {test : ℤ → Bool} {set : Text} (passes : set.all (fun c => test (codePoint c)) = true)
    (ascii : ∀ cp, test cp = true → cp < 128) (listed : ∀ n : Fin 128, test n.val = true → Char.ofNat n.val ∈ set) (c : Char) :
    test (codePoint c) = true ↔ c ∈ set := by
  constructor
  · intro passed
    have small := ascii _ passed
    rw [codePoint] at small passed
    have member := listed ⟨c.toNat, by omega⟩ passed
    rwa [Char.ofNat_toNat] at member
  · exact fun member => List.all_eq_true.mp passes c member

theorem b64Value_nonneg_iff (c : Char) : 0 ≤ b64Value (codePoint c) ↔ c ∈ b64Alphabet := by
  rw [← @mem_iff_of_ascii (fun cp => decide (0 ≤ b64Value cp)) b64Alphabet (by decide +kernel) ?_ (by decide +kernel) c, decide_eq_true_eq]
  intro cp passed
  rw [decide_eq_true_eq] at passed
  simp only [b64Value, isUpper, isLower, isDigit, Bool.and_eq_true, decide_eq_true_eq] at passed
  split_ifs at passed <;> omega

theorem hexValue_nonneg_iff (c : Char) : 0 ≤ hexValue (codePoint c) ↔ c ∈ hexAlphabet := by
  rw [← @mem_iff_of_ascii (fun cp => decide (0 ≤ hexValue cp)) hexAlphabet (by decide +kernel) ?_ (by decide +kernel) c, decide_eq_true_eq]
  intro cp passed
  rw [decide_eq_true_eq] at passed
  simp only [hexValue, hexDigitValue, isDigit, Bool.and_eq_true, decide_eq_true_eq] at passed
  split_ifs at passed <;> simp_all <;> omega

theorem allHex_codePoints (s : Text) : AllHex (codePoints s) ↔ ∀ c ∈ s, c ∈ hexAlphabet := by
  unfold AllHex codePoints
  simp only [List.forall_mem_map, hexValue_nonneg_iff]

theorem padded_codePoints (s : Text) :
    Padded (codePoints s) ↔ ∃ body pad, s = body ++ List.replicate pad '=' ∧ pad ≤ 2 ∧ ∀ c ∈ body, c ∈ b64Alphabet := by
  constructor
  · rintro ⟨codes, pad, split, pad_le, values⟩
    obtain ⟨body, signs, rfl, body_eq, signs_eq⟩ := List.map_eq_append_iff.mp split
    refine ⟨body, pad, ?_, pad_le, ?_⟩
    · congr 1
      have length : signs.length = pad := by rw [← List.length_map codePoint, signs_eq, List.length_replicate]
      rw [List.eq_replicate_iff]
      refine ⟨length, fun c member => ?_⟩
      have sign : codePoint c = 61 := List.eq_of_mem_replicate (by rw [← signs_eq]; exact List.mem_map_of_mem member)
      exact codePoint_inj.mp sign
    · intro c member
      rw [← b64Value_nonneg_iff]
      exact values _ (by rw [← body_eq]; exact List.mem_map_of_mem member)
  · rintro ⟨body, pad, rfl, pad_le, values⟩
    refine ⟨codePoints body, pad, ?_, pad_le, ?_⟩
    · rw [codePoints, List.map_append, List.map_replicate]
      rfl
    · intro cp member
      obtain ⟨c, inside, rfl⟩ := List.mem_map.mp member
      exact (b64Value_nonneg_iff c).mpr (values c inside)

/-! ## Decoders -/

/-- The run ends with a value or with an error of the decoder, never with a read out of range. -/
def Answers {A : Type} (run : Parse A) : Prop := (∃ a, run = .ok a) ∨ ∃ message, run = .error (.malformed message)

theorem Decides.answers {A : Type} {p : Prop} {a : A} {run : Parse A} (decides : Decides p a run) : Answers run :=
  decides.imp (fun accepted => ⟨a, accepted.2⟩) And.right

theorem Decides.ok_iff {A : Type} {p : Prop} {a : A} {run : Parse A} (decides : Decides p a run) :
    (∃ value, run = .ok value) ↔ p := by
  obtain ⟨accepts, rfl⟩ | ⟨refuses, message, rfl⟩ := decides
  · exact iff_of_true ⟨a, rfl⟩ accepts
  · exact iff_of_false (by simp) refuses

theorem base64Decode_decides (s : Text) :
    Decides (Base64Text s) ((groupedOut (codePoints s)).map UInt8.ofNat) (base64Decode s) := by
  have length := length_codePoints s
  have decoded : Decides True _ (fromList (groupedOut (codePoints s))) := .inl ⟨trivial, fromList_ok groupedOut_le⟩
  refine Decides.congr (.guard fun whole => (base64Loop_decides (by omega)).bind decoded) ?_
  rw [and_true, Base64Text, ← padded_codePoints, ← length, not_not, Nat.dvd_iff_mod_eq_zero]
  exact and_congr_right fun whole =>
    ⟨grouped_of_padded (Nat.dvd_of_mod_eq_zero whole), Grouped.padded⟩

theorem hexDecode_decides (s : Text) : Decides (HexText s) ((hexOut (codePoints s)).map UInt8.ofNat) (hexDecode s) := by
  have length := length_codePoints s
  have decoded : Decides True _ (fromList (hexOut (codePoints s))) := .inl ⟨trivial, fromList_ok hexOut_le⟩
  refine Decides.congr (.guard fun whole => (hexLoop_decides (by omega)).bind decoded) ?_
  rw [and_true, HexText, ← allHex_codePoints, ← length, not_not, Nat.dvd_iff_mod_eq_zero]

theorem urlDecode_answers (s : Text) : Answers (urlDecode s) := by
  rw [urlDecode]
  obtain ⟨out, run, bytes⟩ | ⟨message, run⟩ := urlLoop_answers (At.start (codePoints s)) (Nat.lt_succ_self _)
    (fun v member => absurd member (@List.not_mem_nil ℕ v))
  · rw [run, ok_bind, fromList_ok bytes, ok_bind]
    split
    · exact .inl ⟨_, rfl⟩
    · exact .inr ⟨_, rfl⟩
  · exact .inr ⟨message, by rw [run]; rfl⟩

/-! ## Round trips -/

theorem toList_lt (data : Bytes) : ∀ b ∈ toList data, b < 256 := by
  intro v member
  obtain ⟨b, -, rfl⟩ := List.mem_map.mp member
  exact b.toNat_lt

theorem map_ofNat_toList (data : Bytes) : (toList data).map UInt8.ofNat = data := by
  rw [toList, List.map_map]
  exact (List.map_congr_left fun b _ => UInt8.ofNat_toNat).trans (List.map_id data)

theorem base64_round_trip (data : Bytes) : base64Decode (base64Encode data) = .ok data := by
  obtain ⟨grouped, out, ascii⟩ := base64Codes_spec (toList_lt data)
  have codes : codePoints (base64Encode data) = base64Codes (toList data) := codePoints_textOfCodes ascii
  have whole := grouped.dvd
  rw [← codes, length_codePoints] at whole
  obtain ⟨-, run⟩ | ⟨refused, -⟩ := base64Decode_decides (base64Encode data)
  · rw [run, codes, out, map_ofNat_toList]
  · exact absurd ⟨whole, (padded_codePoints _).mp (by rw [codes]; exact grouped.padded)⟩ refused

theorem hex_round_trip (data : Bytes) : hexDecode (hexEncode data) = .ok data := by
  obtain ⟨whole, out⟩ := hexCodes_spec (toList_lt data)
  have digits : ∀ cp ∈ (toList data).flatMap (hexCodes false), 0 ≤ hexValue cp ∧ 0 ≤ cp ∧ cp < 128 := by
    intro cp member
    obtain ⟨b, -, inside⟩ := List.mem_flatMap.mp member
    exact hexCodes_digits inside
  have codes : codePoints (hexEncode data) = (toList data).flatMap (hexCodes false) :=
    codePoints_textOfCodes fun cp member => (digits cp member).2
  rw [← codes, length_codePoints] at whole
  obtain ⟨-, run⟩ | ⟨refused, -⟩ := hexDecode_decides (hexEncode data)
  · rw [run, codes, out, map_ofNat_toList]
  · refine absurd ⟨whole, (allHex_codePoints _).mp ?_⟩ refused
    rw [codes]
    exact fun cp member => (digits cp member).1

theorem length_le_flatMap (bytes : List ℕ) : bytes.length ≤ (bytes.flatMap urlCodes).length := by
  induction bytes with
  | nil => exact le_refl 0
  | cons b bytes ih =>
    have first := urlCodes_length b
    rw [List.flatMap_cons, List.length_append, List.length_cons]
    omega

theorem url_round_trip (s : Text) : urlDecode (urlEncode s) = .ok s := by
  have ascii : ∀ cp ∈ (toList (bytesOf s)).flatMap urlCodes, 0 ≤ cp ∧ cp < 128 := by
    intro cp member
    obtain ⟨b, -, inside⟩ := List.mem_flatMap.mp member
    exact urlCodes_ascii inside
  have codes : codePoints (urlEncode s) = (toList (bytesOf s)).flatMap urlCodes := codePoints_textOfCodes ascii
  have enough : (toList (bytesOf s)).length < ((toList (bytesOf s)).flatMap urlCodes).length + 1 :=
    Nat.lt_succ_of_le (length_le_flatMap _)
  rw [urlDecode, codes, urlLoop_codes (At.start _) enough (toList_lt _), ok_bind, List.nil_append, fromList_toList, ok_bind, textOf_bytesOf]
  rfl

end Thera.Sdk.Encoding

namespace Thera.Lsp

open Sdk

/-! ## File URIs -/

theorem exists_ascii_text {bytes : Bytes} (ascii : ∀ b ∈ bytes, b.toNat < 128) : ∃ text, bytesOf text = bytes := by
  refine ⟨bytes.map fun b => Char.ofNat b.toNat, ?_⟩
  have code {n : ℕ} (small : n < 128) : (Char.ofNat n).toNat = n := by
    have checked : ∀ n : Fin 128, (Char.ofNat n.val).toNat = n.val := by decide
    exact checked ⟨n, small⟩
  rw [bytesOf_ascii ?_, List.map_map]
  · refine (List.map_congr_left fun b member => ?_).trans (List.map_id bytes)
    show UInt8.ofNat (Char.ofNat b.toNat).toNat = b
    rw [code (ascii b member), UInt8.ofNat_toNat]
  · intro c member
    obtain ⟨b, inside, rfl⟩ := List.mem_map.mp member
    rw [code (ascii b inside)]
    exact ascii b inside

theorem hexDigit_spec {v : ℕ} (small : v < 16) : (UInt8.ofNat (hexDigit v)).toNat < 128 ∧ hexVal (UInt8.ofNat (hexDigit v)).toNat = some v := by
  have checked : ∀ v : Fin 16, (UInt8.ofNat (hexDigit v.val)).toNat < 128 ∧ hexVal (UInt8.ofNat (hexDigit v.val)).toNat = some v.val := by decide
  exact checked ⟨v, small⟩

theorem kept_ascii {b : UInt8} (kept : (isUnreserved b.toNat || decide (b = 47)) = true) : b.toNat < 128 ∧ b ≠ 37 := by
  have checked : ∀ n : Fin 256, (isUnreserved (UInt8.ofNat n.val).toNat || decide (UInt8.ofNat n.val = 47)) = true →
      (UInt8.ofNat n.val).toNat < 128 ∧ UInt8.ofNat n.val ≠ 37 := by decide +kernel
  have here := checked ⟨b.toNat, b.toNat_lt⟩
  rw [UInt8.ofNat_toNat] at here
  exact here kept

theorem encodeByte_ascii {b c : UInt8} (member : c ∈ encodeByte b) : c.toNat < 128 := by
  obtain ⟨high, low⟩ := Encoding.nibbles_lt b.toNat
  unfold encodeByte at member
  split at member
  · rename_i kept
    rw [List.mem_singleton.mp member]
    exact (kept_ascii kept).1
  · simp only [List.mem_cons, List.not_mem_nil, or_false] at member
    obtain rfl | rfl | rfl := member
    · decide
    · exact (hexDigit_spec high).1
    · exact (hexDigit_spec low).1

theorem decode_other {b : UInt8} (rest : Bytes) (other : b ≠ 37) : decodeBytes (b :: rest) = b :: decodeBytes rest := by
  match rest with
  | [] => rfl
  | [c] => rfl
  | h :: l :: rest' =>
    rw [decodeBytes]
    exact if_neg other

theorem decode_encodeByte (b : UInt8) (rest : Bytes) : decodeBytes (encodeByte b ++ rest) = b :: decodeBytes rest := by
  obtain ⟨high, low⟩ := Encoding.nibbles_lt b.toNat
  have byte_lt := b.toNat_lt
  unfold encodeByte
  split
  · rename_i kept
    exact decode_other rest (kept_ascii kept).2
  · have value : (b.toNat >>> 4 &&& 15) * 16 + (b.toNat &&& 15) = b.toNat := by
      rw [Encoding.and_15, Encoding.and_15]
      omega
    have pair : hexPair (UInt8.ofNat (hexDigit (b.toNat >>> 4 &&& 15))).toNat (UInt8.ofNat (hexDigit (b.toNat &&& 15))).toNat =
        some b.toNat := by
      rw [hexPair, (hexDigit_spec high).2, (hexDigit_spec low).2]
      exact congrArg some value
    simp only [List.cons_append, List.nil_append, decodeBytes, if_true, pair, UInt8.ofNat_toNat]

theorem uri_round_trip (s : Text) : uriToPath (pathToUri s) = s := by
  have decoded : decodeBytes ((bytesOf s).flatMap encodeByte) = bytesOf s := by
    induction bytesOf s with
    | nil => rfl
    | cons b bytes ih => rw [List.flatMap_cons, decode_encodeByte, ih]
  obtain ⟨text, encoded⟩ := @exists_ascii_text ((bytesOf s).flatMap encodeByte) (by
    intro c member
    obtain ⟨b, -, inside⟩ := List.mem_flatMap.mp member
    exact encodeByte_ascii inside)
  have written : percentEncode s = text := by rw [percentEncode, ← encoded, textOf_bytesOf]; rfl
  rw [uriToPath, pathToUri, if_pos (List.prefix_append _ _), List.drop_left, written, percentDecode, encoded, decoded, textOf_bytesOf]
  rfl

end Thera.Lsp

namespace Thera.Soundness

open Sdk Sdk.Encoding

/-- Every codec gives back what it encoded; base64 and hex accept the texts of their alphabets and no others; no decoder reads out of
range. -/
theorem codecs_are_exact :
    (∀ data : Bytes, base64Decode (base64Encode data) = .ok data ∧ hexDecode (hexEncode data) = .ok data) ∧
      (∀ s : Text, urlDecode (urlEncode s) = .ok s ∧ Lsp.uriToPath (Lsp.pathToUri s) = s) ∧
      (∀ s : Text, ((∃ data, base64Decode s = .ok data) ↔ Base64Text s) ∧ ((∃ data, hexDecode s = .ok data) ↔ HexText s)) ∧
      ∀ s : Text, Answers (base64Decode s) ∧ Answers (hexDecode s) ∧ Answers (urlDecode s) := by
  refine ⟨fun data => ⟨base64_round_trip data, hex_round_trip data⟩, fun s => ⟨url_round_trip s, Lsp.uri_round_trip s⟩, ?_, ?_⟩
  · exact fun s => ⟨(base64Decode_decides s).ok_iff, (hexDecode_decides s).ok_iff⟩
  · exact fun s => ⟨(base64Decode_decides s).answers, (hexDecode_decides s).answers, urlDecode_answers s⟩

end Thera.Soundness
