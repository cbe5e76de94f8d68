import Thera.Proofs.Sdk.JsonValues

/-! # What is serialized can be derived

For every value without doubles there is a derivation whose text is the serialized value and whose meaning is the
value again.
-/

namespace Thera.Sdk

open Scanning Grammar

variable {D : Type} {round : List ℤ → D} {displayDouble : D → String} {pretty : Bool}

/-- A property of a value from that of its items. -/
theorem Json.induction {motive : Json D → Prop} (null : motive .null) (bool : ∀ b, motive (.bool b))
    (int : ∀ n, motive (.int n)) (double : ∀ x, motive (.double x)) (str : ∀ s, motive (.str s))
    (array : ∀ items, (∀ v ∈ items, motive v) → motive (.array items))
    (object : ∀ fields, (∀ f ∈ fields, motive f.2) → motive (.object fields)) (v : Json D) : motive v :=
  @Json.rec D motive (fun items => ∀ v ∈ items, motive v) (fun fields => ∀ f ∈ fields, motive f.2) (fun f => motive f.2)
    null bool int double str array object
    (fun v member => absurd member List.not_mem_nil) (fun _ _ first others => List.forall_mem_cons.mpr ⟨first, others⟩)
    (fun f member => absurd member List.not_mem_nil) (fun _ _ first others => List.forall_mem_cons.mpr ⟨first, others⟩)
    (fun _ _ value => value) v

/-! ## Values without doubles -/

mutual

def Json.NoDouble : Json D → Prop
  | .null => True
  | .bool _ => True
  | .int _ => True
  | .double _ => False
  | .str _ => True
  | .array items => noDoubles items
  | .object fields => noDoubleFields fields

def noDoubles : List (Json D) → Prop
  | [] => True
  | item :: items => item.NoDouble ∧ noDoubles items

def noDoubleFields : List (String × Json D) → Prop
  | [] => True
  | (_, value) :: fields => value.NoDouble ∧ noDoubleFields fields

end

mutual

/-- An object is a map: no key is there twice. -/
def Json.DistinctKeys : Json D → Prop
  | .null => True
  | .bool _ => True
  | .int _ => True
  | .double _ => True
  | .str _ => True
  | .array items => distinctKeys items
  | .object fields => (fields.map Prod.fst).Nodup ∧ distinctKeyFields fields

def distinctKeys : List (Json D) → Prop
  | [] => True
  | item :: items => item.DistinctKeys ∧ distinctKeys items

def distinctKeyFields : List (String × Json D) → Prop
  | [] => True
  | (_, value) :: fields => value.DistinctKeys ∧ distinctKeyFields fields

end

/-! ## Strings -/

theorem toList_fromChars (cps : List ℤ) : (fromChars cps).toList = cps.map charOf := String.toList_ofList

theorem exists_hexDigit {n : ℤ} (low : 0 ≤ n) (high : n < 16) :
    ∃ d : HexDigit, d.1 = charOf (hexChar n) ∧ hexValue (codePoint d.1) = n := by
  have value : hexValue (codePoint (charOf (hexChar n))) = n := by
    interval_cases n <;> rfl
  exact ⟨⟨charOf (hexChar n), value.symm ▸ low⟩, rfl, value⟩

/-- A quoted character is an item that stands for it. -/
theorem exists_item (c : Char) :
    ∃ i : Item, i.text = (quoteChar (codePoint c)).map charOf ∧ Chunk [i] (codePoint c) := by
  -- An escape of one letter.
  have letter (e : Escape) (same : codePoint c = codePoint e.meaning)
      (text : [92, codePoint e.letter] = quoteChar (codePoint e.meaning)) :
      ∃ i : Item, i.text = (quoteChar (codePoint c)).map charOf ∧ Chunk [i] (codePoint c) := by
    refine ⟨.escape e, ?_, .inl ⟨_, rfl, rfl, rfl, same⟩⟩
    rw [same, ← text, List.map_cons, List.map_singleton, charOf_codePoint]
    rfl
  by_cases quote : codePoint c = 34
  · exact letter .quote quote rfl
  by_cases backslash : codePoint c = 92
  · exact letter .backslash backslash rfl
  by_cases backspace : codePoint c = 8
  · exact letter .backspace backspace rfl
  by_cases formFeed : codePoint c = 12
  · exact letter .formFeed formFeed rfl
  by_cases lineFeed : codePoint c = 10
  · exact letter .lineFeed lineFeed rfl
  by_cases carriageReturn : codePoint c = 13
  · exact letter .carriageReturn carriageReturn rfl
  by_cases tab : codePoint c = 9
  · exact letter .tab tab rfl
  rw [quoteChar, if_neg quote, if_neg backslash, if_neg backspace, if_neg formFeed, if_neg lineFeed,
    if_neg carriageReturn, if_neg tab]
  have nonneg := codePoint_nonneg c
  by_cases control : codePoint c < 32
  · obtain ⟨high, highText, highValue⟩ := exists_hexDigit (n := codePoint c / 16) (by omega) (by omega)
    obtain ⟨low, lowText, lowValue⟩ := exists_hexDigit (n := codePoint c % 16) (by omega) (by omega)
    obtain ⟨zero, zeroText, zeroValue⟩ := exists_hexDigit (n := 0) (by omega) (by omega)
    have unit : (Item.unicode zero zero high low).unit = codePoint c := by
      rw [Item.unit, highValue, lowValue, zeroValue]
      omega
    refine ⟨.unicode zero zero high low, ?_, .inl ⟨_, rfl, ?_, ?_, unit.symm⟩⟩
    · rw [if_pos control, Item.text, highText, lowText, zeroText]
      rfl
    · rw [← Bool.not_eq_true, isHigh_unicode, unit]
      omega
    · rw [← Bool.not_eq_true, isLow_unicode, unit]
      omega
  · have printable : 32 ≤ c.toNat := Int.ofNat_le.mp (not_lt.mp control)
    have notQuote : c ≠ '"' := fun same => quote (congrArg codePoint same)
    have notBackslash : c ≠ '\\' := fun same => backslash (congrArg codePoint same)
    refine ⟨.unescaped ⟨c, printable, notQuote, notBackslash⟩, ?_, .inl ⟨_, rfl, rfl, rfl, rfl⟩⟩
    rw [if_neg control, List.map_singleton, charOf_codePoint]
    rfl

theorem exists_items (l : List Char) :
    ∃ items : List Item, items.flatMap Item.text = ((codePoints l).flatMap quoteChar).map charOf ∧
      paired items = true ∧ decode items = codePoints l := by
  induction l with
  | nil => exact ⟨[], rfl, rfl, rfl⟩
  | cons c l ih =>
    obtain ⟨i, itemText, isChunk⟩ := exists_item c
    obtain ⟨items, text, pairs, decoded⟩ := ih
    refine ⟨[i] ++ items, ?_, isChunk.paired.trans pairs, ?_⟩
    · rw [List.flatMap_append, List.flatMap_singleton, itemText, text, ← List.map_append]
      rfl
    · rw [isChunk.decode, decoded]
      rfl

theorem exists_string (s : String) :
    ∃ items : List Item, stringText items = (quote s).toList ∧ paired items = true ∧ stringValue items = s := by
  obtain ⟨items, text, pairs, decoded⟩ := exists_items s.toList
  refine ⟨items, ?_, pairs, ?_⟩
  · rw [stringText, text, quote, toList_fromChars, List.map_append]
    rfl
  · rw [stringValue, decoded, fromChars_codePoints, String.ofList_toList]

/-! ## Integers -/

theorem decimal_decimalDigits (n : ℕ) : decimal (decimalDigits n) = n := foldl_decimalDigits n

/-- Only zero starts with a zero. -/
theorem decimalDigits_leading (n : ℕ) (zero : (decimalDigits n).head? = some '0') : n = 0 := by
  induction n using decimalDigits.induct with
  | case1 n small =>
    rw [decimalDigits, if_pos small] at zero
    have same := congrArg codePoint (Option.some.inj zero)
    rw [codePoint_digit small, show codePoint '0' = 48 from rfl] at same
    omega
  | case2 n large ih =>
    rw [decimalDigits, if_neg large, List.head?_append_of_ne_nil _ (decimalDigits_ne_nil _)] at zero
    have := ih zero
    omega

theorem exists_number (round : List ℤ → D) (n : I64) :
    ∃ d : Number, d.text = (displayInt n.1).toList ∧ d.value round = .int n := by
  have leading (zero : (decimalDigits n.1.natAbs).head? = some '0') : decimalDigits n.1.natAbs = ['0'] := by
    rw [decimalDigits_leading _ zero, decimalDigits]
    rfl
  refine ⟨⟨decide (n.1 < 0), ⟨⟨decimalDigits n.1.natAbs, decimalDigits_ne_nil _, isDigit_decimalDigits _⟩, leading⟩, none, none⟩,
    ?_, ?_⟩
  · rw [displayInt, String.toList_ofList]
    by_cases negative : n.1 < 0 <;> simp [Number.text, Number.signText, fractionText, exponentText, negative]
  · have same : (if decide (n.1 < 0) = true then -(n.1.natAbs : ℤ) else n.1.natAbs) = n.1 := by
      by_cases negative : n.1 < 0
      · rw [if_pos (decide_eq_true negative)]
        omega
      · rw [if_neg (by simpa using negative)]
        omega
    simp only [Number.value, decimal_decimalDigits, Option.isNone_none, and_self, if_true]
    rw [same, toI64, dif_pos n.2]

/-! ## Values -/

theorem exists_break (pretty : Bool) (indent : ℕ) : ∃ ws : Ws, ws.1 = (breakLine pretty indent).flatMap String.toList := by
  refine ⟨⟨(breakLine pretty indent).flatMap String.toList, ?_⟩, rfl⟩
  rw [breakLine]
  cases pretty with
  | false => simp
  | true =>
    intro c member
    have space : c = '\n' ∨ indent ≠ 0 ∧ c = charOf 32 := by
      simpa [indentStr, toList_fromChars, List.mem_replicate] using member
    obtain rfl | ⟨-, rfl⟩ := space
    · rfl
    · rfl

/-- The space after a colon. -/
def colonSpace (pretty : Bool) : Ws :=
  if pretty then ⟨[' '], fun _ member => List.mem_singleton.mp member ▸ rfl⟩ else noWs

variable (round displayDouble pretty) in
/-- There is a derivation of what is written for the value, and it means the value. -/
def Derived (v : Json D) : Prop :=
  ∀ indent : ℕ, v.NoDouble → v.DistinctKeys → ∃ d : Value,
    d.text = (writeValue displayDouble pretty indent v).flatMap String.toList ∧ d.Paired ∧ d.value round = v

theorem exists_elements (indent : ℕ) {item : Json D} {items : List (Json D)}
    (derived : ∀ v ∈ item :: items, Derived round displayDouble pretty v) (noDouble : noDoubles (item :: items))
    (distinct : distinctKeys (item :: items)) :
    ∃ d : Elements,
      d.text = (writeItems displayDouble pretty indent (item :: items) ++ breakLine pretty indent).flatMap String.toList ∧
        d.Paired ∧ d.values round = item :: items := by
  induction items generalizing item with
  | nil =>
    rw [noDoubles] at noDouble
    rw [distinctKeys] at distinct
    obtain ⟨before, beforeText⟩ := exists_break pretty (indent + 1)
    obtain ⟨after, afterText⟩ := exists_break pretty indent
    obtain ⟨d, text, pairs, value⟩ := derived item List.mem_cons_self (indent + 1) noDouble.1 distinct.1
    refine ⟨.last before d after, ?_, by rw [Elements.Paired]; exact pairs, by rw [Elements.values, value]⟩
    simp [Elements.text, writeItems, text, beforeText, afterText]
  | cons next items ih =>
    rw [noDoubles] at noDouble
    rw [distinctKeys] at distinct
    obtain ⟨before, beforeText⟩ := exists_break pretty (indent + 1)
    obtain ⟨d, text, pairs, value⟩ := derived item List.mem_cons_self (indent + 1) noDouble.1 distinct.1
    obtain ⟨ds, texts, pairs', values⟩ :=
      ih (fun v member => derived v (List.mem_cons_of_mem _ member)) noDouble.2 distinct.2
    refine ⟨.more before d noWs ds, ?_, by rw [Elements.Paired]; exact ⟨pairs, pairs'⟩,
      by rw [Elements.values, value, values]⟩
    rw [Elements.text, writeItems, texts, text, beforeText]
    simp [noWs]

theorem exists_members (indent : ℕ) {field : String × Json D} {fields : List (String × Json D)}
    (derived : ∀ f ∈ field :: fields, Derived round displayDouble pretty f.2) (noDouble : noDoubleFields (field :: fields))
    (distinct : distinctKeyFields (field :: fields)) :
    ∃ d : Members,
      d.text = (writeFields displayDouble pretty indent (field :: fields) ++ breakLine pretty indent).flatMap String.toList ∧
        d.Paired ∧ d.fields round = field :: fields := by
  induction fields generalizing field with
  | nil =>
    obtain ⟨key, value⟩ := field
    rw [noDoubleFields] at noDouble
    rw [distinctKeyFields] at distinct
    obtain ⟨before, beforeText⟩ := exists_break pretty (indent + 1)
    obtain ⟨after, afterText⟩ := exists_break pretty indent
    obtain ⟨items, keyText, keyPairs, keyValue⟩ := exists_string key
    obtain ⟨d, text, pairs, same⟩ := derived _ List.mem_cons_self (indent + 1) noDouble.1 distinct.1
    refine ⟨.last before items noWs (colonSpace pretty) d after, ?_, by rw [Members.Paired]; exact ⟨keyPairs, pairs⟩,
      by rw [Members.fields, keyValue, same]⟩
    rw [Members.text, text, keyText, beforeText, afterText, writeFields]
    cases pretty <;> simp [noWs, colonSpace, writeFields]
  | cons next fields ih =>
    obtain ⟨key, value⟩ := field
    rw [noDoubleFields] at noDouble
    rw [distinctKeyFields] at distinct
    obtain ⟨before, beforeText⟩ := exists_break pretty (indent + 1)
    obtain ⟨items, keyText, keyPairs, keyValue⟩ := exists_string key
    obtain ⟨d, text, pairs, same⟩ := derived _ List.mem_cons_self (indent + 1) noDouble.1 distinct.1
    obtain ⟨ds, texts, pairs', values⟩ :=
      ih (fun f member => derived f (List.mem_cons_of_mem _ member)) noDouble.2 distinct.2
    refine ⟨.more before items noWs (colonSpace pretty) d noWs ds, ?_,
      by rw [Members.Paired]; exact ⟨keyPairs, pairs, pairs'⟩, by rw [Members.fields, keyValue, same, values]⟩
    rw [Members.text, writeFields, texts, text, keyText, beforeText]
    cases pretty <;> simp [noWs, colonSpace]

theorem derived_array {items : List (Json D)} (derived : ∀ v ∈ items, Derived round displayDouble pretty v) :
    Derived round displayDouble pretty (.array items) := by
  intro indent noDouble distinct
  rw [Json.NoDouble] at noDouble
  rw [Json.DistinctKeys] at distinct
  cases items with
  | nil => exact ⟨.emptyArray noWs, by simp [Value.text, writeValue, noWs], by rw [Value.Paired]; trivial, by rw [Value.value]⟩
  | cons item items =>
    obtain ⟨d, text, pairs, values⟩ := exists_elements indent derived noDouble distinct
    refine ⟨.array d, ?_, by rw [Value.Paired]; exact pairs, by rw [Value.value, values]⟩
    rw [Value.text, text, writeValue]
    simp

theorem derived_object {fields : List (String × Json D)} (derived : ∀ f ∈ fields, Derived round displayDouble pretty f.2) :
    Derived round displayDouble pretty (.object fields) := by
  intro indent noDouble distinct
  rw [Json.NoDouble] at noDouble
  rw [Json.DistinctKeys] at distinct
  cases fields with
  | nil => exact ⟨.emptyObject noWs, by simp [Value.text, writeValue, noWs], by rw [Value.Paired]; trivial, by rw [Value.value]⟩
  | cons field fields =>
    obtain ⟨d, text, pairs, values⟩ := exists_members indent derived noDouble distinct.2
    refine ⟨.object d, ?_, by rw [Value.Paired]; exact pairs, ?_⟩
    · rw [Value.text, text, writeValue]
      simp
    · rw [Value.value, values, OrderedAssoc.lastWins_of_nodup (fun _ _ => decide_eq_true_iff) distinct.1]

theorem derived (v : Json D) : Derived round displayDouble pretty v := by
  induction v using Json.induction with
  | null =>
    intro indent _ _
    exact ⟨.null, by simp [Value.text, writeValue], by rw [Value.Paired]; trivial, by rw [Value.value]⟩
  | bool b =>
    intro indent _ _
    exact ⟨.bool b, by simp [Value.text, writeValue], by rw [Value.Paired]; trivial, by rw [Value.value]⟩
  | int n =>
    intro indent _ _
    obtain ⟨d, text, value⟩ := exists_number round n
    refine ⟨.number d, ?_, by rw [Value.Paired]; trivial, by rw [Value.value, value]⟩
    rw [Value.text, text, writeValue, List.flatMap_singleton]
  | double x =>
    intro indent noDouble _
    rw [Json.NoDouble] at noDouble
    exact noDouble.elim
  | str s =>
    intro indent _ _
    obtain ⟨items, text, pairs, value⟩ := exists_string s
    refine ⟨.string items, ?_, by rw [Value.Paired]; exact pairs, by rw [Value.value, value]⟩
    rw [Value.text, text, writeValue, List.flatMap_singleton]
  | array items ih => exact derived_array ih
  | object fields ih => exact derived_object ih

end Thera.Sdk
