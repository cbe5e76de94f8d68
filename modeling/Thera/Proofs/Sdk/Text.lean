import Thera.Model.Sdk.Text

/-! # Strings as bytes, and lines -/

namespace Thera.Sdk

/-! ## UTF-8 -/

theorem textOf_bytesOf (text : Text) : textOf (bytesOf text) = some text := by
  rw [textOf, bytesOf]
  change (List.utf8Encode text).utf8Decode?.map Array.toList = some text
  rw [List.utf8Decode?_utf8Encode]
  rfl

theorem bytesOf_of_textOf {bytes : Bytes} {text : Text} (read : textOf bytes = some text) : bytesOf text = bytes := by
  obtain ⟨chars, decoded, rfl⟩ := Option.map_eq_some_iff.mp read
  have same := @ByteArray.utf8Encode_get_utf8Decode? bytes.toByteArray (by simp [decoded])
  simp only [decoded, Option.get_some] at same
  have same : (bytesOf chars.toList).toByteArray = bytes.toByteArray := same
  simpa using congrArg (fun b => b.data.toList) same

/-! ## Characters and bytes -/

theorem bytesOf_append (a b : Text) : bytesOf (a ++ b) = bytesOf a ++ bytesOf b := List.flatMap_append

theorem bytesOf_cons (c : Char) (text : Text) : bytesOf (c :: text) = String.utf8EncodeChar c ++ bytesOf text := List.flatMap_cons

theorem bytesOf_injective {a b : Text} (same : bytesOf a = bytesOf b) : a = b := by
  have decoded := congrArg textOf same
  rwa [textOf_bytesOf, textOf_bytesOf, Option.some.injEq] at decoded

theorem utf8EncodeChar_ascii {c : Char} (ascii : c.toNat < 128) : String.utf8EncodeChar c = [UInt8.ofNat c.toNat] := by
  have small : c.val.toNat ≤ 127 := Nat.le_of_lt_succ ascii
  rw [String.utf8EncodeChar]
  simp only [small, if_true]
  rfl

theorem utf8EncodeChar_beyond {c : Char} (large : ¬ c.toNat < 128) :
    String.utf8EncodeChar c ≠ [] ∧ ∀ b ∈ String.utf8EncodeChar c, 128 ≤ b.toNat := by
  have range : ¬ c.val.toNat ≤ 127 := by
    have : c.toNat = c.val.toNat := rfl
    omega
  rw [String.utf8EncodeChar]
  simp only [range, if_false]
  split_ifs <;> simp <;> omega

/-- A property of numbers that does not tell bytes of ASCII apart from the others holds of a text as of its bytes. -/
theorem forall_bytesOf {p : ℕ → Prop} (uniform : ∀ m n, 128 ≤ m → 128 ≤ n → (p m ↔ p n)) (text : Text) :
    (∀ b ∈ bytesOf text, p b.toNat) ↔ ∀ c ∈ text, p c.toNat := by
  rw [bytesOf]
  simp only [List.mem_flatMap, forall_exists_index, and_imp]
  constructor
  · intro bytes c member
    by_cases ascii : c.toNat < 128
    · have byte := bytes (UInt8.ofNat c.toNat) c member (by rw [utf8EncodeChar_ascii ascii]; exact List.mem_singleton_self _)
      rwa [UInt8.toNat_ofNat_of_lt' (Nat.lt_of_lt_of_le ascii (by decide))] at byte
    · obtain ⟨nonempty, large⟩ := utf8EncodeChar_beyond ascii
      obtain ⟨b, inside⟩ := List.exists_mem_of_ne_nil _ nonempty
      exact (uniform _ _ (large b inside) (by omega)).mp (bytes b c member inside)
  · intro chars b c member inside
    have char := chars c member
    by_cases ascii : c.toNat < 128
    · rw [utf8EncodeChar_ascii ascii, List.mem_singleton] at inside
      rwa [inside, UInt8.toNat_ofNat_of_lt' (Nat.lt_of_lt_of_le ascii (by decide))]
    · exact (uniform _ _ (by omega) ((utf8EncodeChar_beyond ascii).2 b inside)).mp char

theorem bytesOf_eq_nil {text : Text} : bytesOf text = [] ↔ text = [] :=
  ⟨fun empty => bytesOf_injective empty, fun empty => by rw [empty]; rfl⟩

theorem bytesOf_ascii {text : Text} (ascii : ∀ c ∈ text, c.toNat < 128) : bytesOf text = text.map fun c => UInt8.ofNat c.toNat := by
  induction text with
  | nil => rfl
  | cons c text ih =>
    rw [bytesOf_cons, utf8EncodeChar_ascii (ascii c List.mem_cons_self), ih fun d member => ascii d (List.mem_cons_of_mem c member)]
    rfl

/-! ## Lines -/

/-- The stream starts with a line; LF ends it. -/
def Splits (stream raw rest : Bytes) : Prop := stream = raw ++ 10 :: rest ∧ (10 : UInt8) ∉ raw

/-- There is one way to cut a list at the first of some element. -/
theorem cut_unique {α : Type} {x : α} {before behind before' behind' : List α} (same : before ++ x :: behind = before' ++ x :: behind')
    (none : x ∉ before) (none' : x ∉ before') : before = before' ∧ behind = behind' := by
  obtain ⟨extra, rfl, tails⟩ | ⟨extra, rfl, tails⟩ := List.append_eq_append_iff.mp same
  · cases extra with
    | nil => exact ⟨(List.append_nil _).symm, List.tail_eq_of_cons_eq tails⟩
    | cons y extra =>
      cases tails
      exact absurd (List.mem_append_right _ List.mem_cons_self) none'
  · cases extra with
    | nil => exact ⟨List.append_nil _, (List.tail_eq_of_cons_eq tails).symm⟩
    | cons y extra =>
      cases tails
      exact absurd (List.mem_append_right _ List.mem_cons_self) none

theorem findIdx?_drop_absent {α : Type} [DecidableEq α] {x : α} {l : List α} (absent : x ∉ l) (n : ℕ) :
    (l.drop n).findIdx? (· = x) = none := by
  rw [List.findIdx?_eq_none_iff]
  intro y member
  apply decide_eq_false
  rintro rfl
  exact absent (List.mem_of_mem_drop member)

theorem findIdx?_drop_first {α : Type} [DecidableEq α] {x : α} {l : List α} {n : ℕ} (absent : x ∉ l) (inside : n ≤ l.length)
    (rest : List α) : ((l ++ x :: rest).drop n).findIdx? (· = x) = some (l.length - n) := by
  rw [List.drop_append_of_le_length inside, List.findIdx?_append, findIdx?_drop_absent absent]
  simp [List.findIdx?_cons]

theorem Splits.unique {stream raw rest raw' rest' : Bytes} (splits : Splits stream raw rest) (splits' : Splits stream raw' rest') :
    raw = raw' ∧ rest = rest' := cut_unique (splits.1.symm.trans splits'.1) splits.2 splits'.2

/-- A part of the stream without LF ends in the line. -/
theorem Splits.inside {stream raw rest : Bytes} {n : ℕ} (splits : Splits stream raw rest) (before : (10 : UInt8) ∉ stream.take n) :
    n ≤ raw.length := by
  by_contra beyond
  apply before
  rw [splits.1, List.take_append]
  apply List.mem_append_right
  rw [show n - raw.length = (n - raw.length - 1) + 1 by omega]
  exact List.mem_cons_self

/-! ## Sources -/

/-- The bytes a source gives before its end or its failure. -/
def arriving : List (Except String Bytes) → Bytes
  | [] => []
  | .error _ :: _ => []
  | .ok [] :: _ => []
  | .ok (b :: chunk) :: rest => b :: chunk ++ arriving rest

/-- The failure a source ends with, if it does. -/
def failing : List (Except String Bytes) → Option String
  | [] => none
  | .error message :: _ => some message
  | .ok [] :: _ => none
  | .ok (_ :: _) :: rest => failing rest

theorem arriving_chunks {chunks : List Bytes} (nonempty : ∀ chunk ∈ chunks, chunk ≠ []) :
    arriving (chunks.map .ok) = chunks.flatten ∧ failing (chunks.map .ok) = none := by
  induction chunks with
  | nil => exact ⟨rfl, rfl⟩
  | cons chunk chunks ih =>
    obtain ⟨bytes, healthy⟩ := ih fun chunk member => nonempty chunk (List.mem_cons_of_mem _ member)
    cases chunk with
    | nil => exact absurd rfl (nonempty [] List.mem_cons_self)
    | cons b chunk => exact ⟨by rw [List.map_cons, arriving, bytes, List.flatten_cons], by rw [List.map_cons, failing, healthy]⟩

end Thera.Sdk
