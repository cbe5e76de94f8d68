import Thera.Soundness.MessageConsumption

/-! # Messages of a connection

A stream of messages and of header blocks that announce none is read back message by message, in whatever chunks it arrives. Every
call leaves the buffer at the start of something that was sent.
-/

namespace Thera.Lsp

open Sdk

/-! ## What is sent -/

/-- What stands before a body. -/
def headerOf (body : Text) : Text := "Content-Length: ".toList ++ Http.intText (bytesOf body).length ++ ['\r', '\n', '\r', '\n']

/-- A message, or a header block. -/
inductive Item where
  | message (body : Text)
  | block (bytes : Bytes)

def Item.wire : Item → Bytes
  | .message body => bytesOf (frame body)
  | .block bytes => bytes

/-- The bytes of some items, one behind the other. -/
def wire (items : List Item) : Bytes := items.flatMap Item.wire

/-- The messages among some items. -/
def bodies (items : List Item) : List Text :=
  items.filterMap fun
    | .message body => some body
    | .block _ => none

section

variable (lowering : Http.Lowering)

/-- A message whose frame a string can hold, or a complete header block without a usable length. -/
def Item.Sendable : Item → Prop
  | .message body => (bytesOf (frame body)).length < 2 ^ 63
  | .block bytes => IsBlock bytes ∧ parseContentLength lowering (bytesToString bytes) = none

end

theorem bytesOf_frame (body : Text) : bytesOf (frame body) = bytesOf (headerOf body) ++ bytesOf body := by
  rw [← bytesOf_append]
  rfl

theorem isDigit_ascii {c : Char} (digit : isDigit (codePoint c) = true) : 48 ≤ c.toNat ∧ c.toNat ≤ 57 := by
  rw [isDigit, Bool.and_eq_true, decide_eq_true_eq, decide_eq_true_eq, codePoint] at digit
  omega

theorem isBlock_headerOf (body : Text) : IsBlock (bytesOf (headerOf body)) := by
  have ends : bytesOf ['\r', '\n', '\r', '\n'] = terminator := by decide
  unfold headerOf
  rw [bytesOf_append, ends]
  apply isBlock_of_noCr
  rw [bytesOf_ascii]
  · rw [List.mem_map]
    rintro ⟨c, member, same⟩
    rw [Http.intText_natCast, List.mem_append] at member
    obtain name | digit := member
    · have noCr : ("Content-Length: ".toList.all fun c => decide (UInt8.ofNat c.toNat ≠ 13)) = true := by decide
      exact of_decide_eq_true (List.all_eq_true.mp noCr c name) same
    · have range := isDigit_ascii (isDigit_decimalDigits _ c digit)
      have value := congrArg UInt8.toNat same
      rw [UInt8.toNat_ofNat_of_lt' (by show c.toNat < 256; omega)] at value
      have : (13 : UInt8).toNat = 13 := rfl
      omega
  · intro c member
    rw [Http.intText_natCast, List.mem_append] at member
    obtain name | digit := member
    · have ascii : ("Content-Length: ".toList.all fun c => decide (c.toNat < 128)) = true := by decide
      exact of_decide_eq_true (List.all_eq_true.mp ascii c name)
    · have range := isDigit_ascii (isDigit_decimalDigits _ c digit)
      omega

/-- The line that announces a length. -/
theorem lines_headerOf (body : Text) :
    lines (headerOf body) = ["Content-Length".toList ++ ':' :: ' ' :: Http.intText (bytesOf body).length ++ ['\r'], ['\r']] := by
  have digits : '\n' ∉ Http.intText (bytesOf body).length := by
    intro member
    rw [Http.intText_natCast] at member
    exact absurd (isDigit_decimalDigits _ _ member) (by decide)
  have shape : headerOf body =
      ("Content-Length".toList ++ ':' :: ' ' :: Http.intText (bytesOf body).length ++ ['\r'] ++ '\n' :: ['\r']) ++ ['\n'] := by
    have name : "Content-Length: ".toList = "Content-Length".toList ++ [':', ' '] := by decide
    unfold headerOf
    rw [name]
    simp only [List.append_assoc, List.cons_append, List.nil_append]
  have free : '\n' ∉ "Content-Length".toList ++ ':' :: ' ' :: Http.intText (bytesOf body).length ++ ['\r'] := by
    simp [digits]
  rw [lines, shape, if_neg (by simp), List.getLast?_concat, if_pos rfl, List.dropLast_concat,
    List.splitOn_append_cons_self_of_not_mem free]
  rfl

theorem trim_padded {text : Text} {c w : Char} (none : ∀ d ∈ c :: text, Http.isWhite d = false) (white : Http.isWhite w = true) :
    Http.trim (c :: text ++ [w]) = c :: text := by
  have start : (c :: text ++ [w]).dropWhile Http.isWhite = c :: text ++ [w] :=
    List.dropWhile_cons_of_neg (by rw [none c List.mem_cons_self]; decide)
  have trimmed := Http.trim_of_noWhite none
  rw [Http.trim, List.dropWhile_cons_of_neg (by rw [none c List.mem_cons_self]; decide)] at trimmed
  rw [Http.trim, start, List.rdropWhile_concat_pos _ _ _ white, trimmed]

section

variable {lowering : Http.Lowering}

theorem lower_name : lowering.lower (Http.trim "Content-Length".toList) = Http.contentLength := by
  rw [show Http.trim "Content-Length".toList = "Content-Length".toList by decide, lowering.ascii]
  · decide
  · exact fun c member => of_decide_eq_true (List.all_eq_true.mp
      (show ("Content-Length".toList.all fun c => decide (c.toNat < 128)) = true by decide) c member)

theorem parse_headerOf {body : Text} (small : (bytesOf body).length < 2 ^ 63) :
    ∃ len, parseContentLength lowering (headerOf body) = some len ∧ len.1 = (bytesOf body).length := by
  obtain ⟨len, read, value⟩ := Http.toInt_intText small
  refine ⟨len, ?_, value⟩
  have digits : ':' ∉ ' ' :: Http.intText (bytesOf body).length ++ ['\r'] := by
    rw [Http.intText_natCast]
    simp only [List.cons_append, List.mem_cons, List.mem_append, not_or]
    exact ⟨by decide, fun member => absurd (isDigit_decimalDigits _ _ member) (by decide), by decide, List.not_mem_nil⟩
  have trimmed : Http.trim (' ' :: Http.intText (bytesOf body).length ++ ['\r']) = Http.intText (bytesOf body).length := by
    obtain ⟨c, text, shape⟩ := List.exists_cons_of_ne_nil (decimalDigits_ne_nil (bytesOf body).length)
    have noWhite := Http.isWhite_decimalDigits (bytesOf body).length
    rw [shape] at noWhite
    rw [Http.intText_natCast, List.cons_append, Http.trim_space, shape, trim_padded noWhite (by decide)]
  have parts : ("Content-Length".toList ++ ':' :: ' ' :: Http.intText (bytesOf body).length ++ ['\r']).splitOn ':' =
      ["Content-Length".toList, ' ' :: Http.intText (bytesOf body).length ++ ['\r']] := by
    rw [List.append_assoc, List.cons_append, List.splitOn_append_cons_self_of_not_mem (by decide), List.splitOn_eq_singleton digits]
  rw [parseContentLength, lines_headerOf, lengthInLines, parts]
  dsimp only
  rw [if_pos lower_name, trimmed, read]
  exact if_pos (by rw [value]; omega)

theorem wire_cons (item : Item) (items : List Item) : wire (item :: items) = item.wire ++ wire items := List.flatMap_cons

theorem bodies_append (items items' : List Item) : bodies (items ++ items') = bodies items ++ bodies items' := List.filterMap_append

theorem wire_message (body : Text) (items : List Item) :
    wire (.message body :: items) = bytesOf (headerOf body) ++ (bytesOf body ++ wire items) := by
  rw [wire_cons, Item.wire, bytesOf_frame, List.append_assoc]

/-! ## One call -/

theorem announced_headerOf {body : Text} (small : (Item.message body).Sendable lowering) :
    ∃ len, parseContentLength lowering (bytesToString (bytesOf (headerOf body))) = some len ∧ (bytesOf body).length = len.1 ∧
      (bytesOf (headerOf body)).length + len.1 < 2 ^ 63 := by
  rw [Item.Sendable, bytesOf_frame, List.length_append] at small
  obtain ⟨len, parsed, value⟩ := @parse_headerOf lowering body (by omega)
  exact ⟨len, by rw [bytesToString_bytesOf, parsed], value.symm, by omega⟩

/-- The block at the front of some items is the first of them, or its header. -/
theorem wire_block {block behind : Bytes} {items : List Item} (isBlock : IsBlock block)
    (sendable : ∀ item ∈ items, item.Sendable lowering) (same : block ++ behind = wire items) :
    (∃ others, items = .block block :: others ∧ behind = wire others) ∨
      ∃ body others, items = .message body :: others ∧ block = bytesOf (headerOf body) ∧ behind = bytesOf body ++ wire others := by
  cases items with
  | nil =>
    have long := isBlock.length_ge
    have empty := congrArg List.length same
    rw [List.length_append, show wire [] = [] from rfl, List.length_nil] at empty
    omega
  | cons item others =>
    cases item with
    | block bytes =>
      obtain ⟨rfl, rfl⟩ := isBlock.unique (sendable _ List.mem_cons_self).1 (same.trans (wire_cons _ _))
      exact .inl ⟨others, rfl, rfl⟩
    | message body =>
      obtain ⟨rfl, rfl⟩ := isBlock.unique (isBlock_headerOf body) (same.trans (wire_message _ _))
      exact .inr ⟨body, others, rfl, rfl, rfl⟩

theorem bytesOf_injective : Function.Injective bytesOf := fun a b same => by
  rw [← bytesToString_bytesOf a, same, bytesToString_bytesOf]

/-- What comes off the bytes of some items are some of the blocks, and the first message. -/
theorem Consumes.items {items : List Item} {buf rest : Bytes} {answer : Option Text} (consumes : Consumes lowering buf answer rest)
    (sendable : ∀ item ∈ items, item.Sendable lowering) (same : buf = wire items) :
    ∃ dropped left, items = dropped ++ ((answer.map Item.message).toList ++ left) ∧ bodies dropped = [] ∧ rest = wire left := by
  induction consumes generalizing items with
  | waits => exact ⟨[], items, rfl, rfl, same⟩
  | skip unusable _ ih =>
    obtain ⟨others, rfl, rfl⟩ | ⟨body, others, rfl, rfl, -⟩ := wire_block unusable.1 sendable same
    · obtain ⟨dropped, left, rfl, blocks, rfl⟩ := ih (fun item member => sendable item (List.mem_cons_of_mem _ member)) rfl
      exact ⟨.block _ :: dropped, left, rfl, blocks, rfl⟩
    · obtain ⟨len, announced, -⟩ := announced_headerOf (sendable _ List.mem_cons_self)
      cases unusable.2.symm.trans announced
  | message isBlock announced exact =>
    obtain ⟨others, rfl, -⟩ | ⟨body, others, rfl, rfl, split⟩ := wire_block isBlock sendable same
    · cases (sendable _ List.mem_cons_self).2.symm.trans announced
    · obtain ⟨len, announced', exact', -⟩ := announced_headerOf (sendable _ List.mem_cons_self)
      cases announced.symm.trans announced'
      obtain ⟨bytes, rfl⟩ := List.append_inj split (by omega)
      obtain rfl := bytesOf_injective bytes
      exact ⟨[], others, rfl, rfl, rfl⟩

theorem not_spoiled_wire {items : List Item} {buf : Bytes} (sendable : ∀ item ∈ items, item.Sendable lowering) (same : buf = wire items) :
    ¬ Spoiled lowering buf := by
  intro spoiled
  induction spoiled generalizing items with
  | skip unusable _ ih =>
    obtain ⟨others, rfl, split⟩ | ⟨body, others, rfl, rfl, -⟩ := wire_block unusable.1 sendable same
    · exact ih (fun item member => sendable item (List.mem_cons_of_mem _ member)) split
    · obtain ⟨len, announced, -⟩ := announced_headerOf (sendable _ List.mem_cons_self)
      cases unusable.2.symm.trans announced
  | here isBlock announced bad =>
    obtain ⟨others, rfl, -⟩ | ⟨body, others, rfl, rfl, rfl⟩ := wire_block isBlock sendable same
    · cases (sendable _ List.mem_cons_self).2.symm.trans announced
    · obtain ⟨len, announced', exact, small⟩ := announced_headerOf (sendable _ List.mem_cons_self)
      cases announced.symm.trans announced'
      obtain ⟨bytes, front, size, invalid⟩ := bad.resolve_left (by omega)
      have whole : bytes = bytesOf body :=
        (List.prefix_of_prefix_length_le front (List.prefix_append _ _) (by omega)).eq_of_length (by omega)
      rw [whole, textOf_bytesOf] at invalid
      cases invalid

/-- Once all has arrived, a message is found if there is one. -/
theorem extractLoop_wire {items : List Item} {fuel : ℕ} (sendable : ∀ item ∈ items, item.Sendable lowering)
    (enough : (wire items).length ≤ fuel) (nothing : (extractLoop lowering fuel (wire items)).body = none) : bodies items = [] := by
  induction items generalizing fuel with
  | nil => rfl
  | cons item items ih =>
    have here := sendable item List.mem_cons_self
    cases item with
    | block bytes =>
      have long := here.1.length_ge
      rw [wire_cons, Item.wire] at enough nothing
      rw [List.length_append] at enough
      obtain ⟨fuel, rfl⟩ := Nat.exists_eq_add_of_le' (show 1 ≤ fuel by omega)
      rw [extractLoop_block here.1 here.2] at nothing
      exact ih (fun item member => sendable item (List.mem_cons_of_mem _ member)) (by omega) nothing
    | message body =>
      obtain ⟨len, announced, exact, small⟩ := announced_headerOf here
      have long := (isBlock_headerOf body).length_ge
      rw [wire_message] at enough nothing
      rw [List.length_append] at enough
      obtain ⟨fuel, rfl⟩ := Nat.exists_eq_add_of_le' (show 1 ≤ fuel by omega)
      rw [extractLoop_arrived (isBlock_headerOf body) announced small exact] at nothing
      cases nothing

/-- What is in the buffer and what will arrive, in chunks that are not empty, are the bytes of the items. -/
def Connection.Holds (conn : Connection) (items : List Item) : Prop :=
  ∃ chunks : List Bytes, conn.source = chunks.map .ok ∧ (∀ chunk ∈ chunks, chunk ≠ []) ∧ conn.pending ++ chunks.flatten = wire items

/-- Every chunk arrives and is not empty. -/
def Arrives (source : List (Except String Bytes)) : Prop := ∀ chunk ∈ source, ∃ bytes, chunk = .ok bytes ∧ bytes ≠ []

theorem holds_iff {conn : Connection} {items : List Item} : conn.Holds items ↔ Arrives conn.source ∧ conn.stream = wire items := by
  obtain ⟨pending, source⟩ := conn
  constructor
  · rintro ⟨chunks, rfl, nonempty, bytes⟩
    refine ⟨fun chunk member => ?_, ?_⟩
    · obtain ⟨bytes, inside, rfl⟩ := List.mem_map.mp member
      exact ⟨bytes, rfl, nonempty bytes inside⟩
    · rw [Connection.stream, List.flatMap_map, ← bytes]
      exact congrArg (pending ++ ·) List.flatMap_id
  · rintro ⟨arrives, bytes⟩
    refine ⟨source.map fun chunk => chunk.toOption.getD [], ?_, fun chunk member => ?_, ?_⟩
    · rw [List.map_map]
      refine ((List.map_congr_left fun chunk member => ?_).trans (List.map_id source)).symm
      obtain ⟨bytes, rfl, -⟩ := arrives chunk member
      rfl
    · obtain ⟨chunk, inside, rfl⟩ := List.mem_map.mp member
      obtain ⟨bytes, rfl, nonempty⟩ := arrives chunk inside
      exact nonempty
    · rw [← bytes, Connection.stream, List.flatMap_def]

theorem readLoop_source (pending : Bytes) (source : List (Except String Bytes)) :
    (readLoop lowering pending source).2.source ⊆ source := by
  fun_induction readLoop lowering pending source with
  | case1 => exact List.Subset.refl _
  | case2 => exact List.Subset.refl _
  | case3 => exact List.subset_cons_self _ _
  | case4 => exact List.subset_cons_self _ _
  | case5 =>
    rename_i ih
    exact List.subset_cons_of_subset _ ih

/-- A read answers nothing only if there is no message. -/
theorem readLoop_nothing {pending : Bytes} {source : List (Except String Bytes)} {items : List Item}
    (sendable : ∀ item ∈ items, item.Sendable lowering) (arrives : Arrives source)
    (bytes : (Connection.mk pending source).stream = wire items) (nothing : (readLoop lowering pending source).1 = none) :
    bodies items = [] := by
  fun_induction readLoop lowering pending source generalizing items with
  | case1 => cases nothing
  | case2 pending =>
    rename_i none
    rw [Connection.stream, List.flatMap_nil, List.append_nil] at bytes
    dsimp only at bytes
    subst bytes
    exact extractLoop_wire sendable le_rfl none
  | case3 =>
    obtain ⟨bytes, same, -⟩ := arrives _ List.mem_cons_self
    cases same
  | case4 pending ex none chunk source =>
    rename_i empty
    obtain ⟨bytes, same, nonempty⟩ := arrives _ List.mem_cons_self
    cases same
    exact absurd (List.length_eq_zero_iff.mp empty) nonempty
  | case5 pending ex none chunk source more =>
    rename_i ih
    have fine := not_spoiled_wire sendable bytes
    have first := extractLoop_consumes le_rfl fun spoiled => fine (spoiled.arriving _)
    obtain ⟨dropped, left, rfl, blocks, split⟩ := (first.ends none _).items sendable bytes
    have later := ih (fun item member => sendable item (List.mem_append_right _ member))
      (fun chunk member => arrives chunk (List.mem_cons_of_mem _ member))
      (Eq.trans (by rw [Connection.stream, List.append_assoc]; rfl) split) nothing
    rw [bodies_append, blocks]
    exact later

/-! ## Runs -/

end

inductive Call where
  | read
  | attempt
  deriving DecidableEq

section

variable (lowering : Http.Lowering)

def Call.run (conn : Connection) : Call → Option Text × Connection
  | .read => readMessage lowering conn
  | .attempt => tryMessage lowering conn

/-- The answers of some calls, one after the other, and the connection behind them. -/
def runCalls : List Call → Connection → List (Option Text) × Connection
  | [], conn => ([], conn)
  | call :: calls, conn =>
      let (answer, conn) := call.run lowering conn
      let (answers, conn) := runCalls calls conn
      (answer :: answers, conn)

end

section

variable {lowering : Http.Lowering} {conn : Connection} {items : List Item}

/-- What a call answers is the first message or nothing, and a read answers nothing only if there is none. The blocks in front of the
message may be gone, and nothing else. -/
theorem Call.run_holds (call : Call) (sendable : ∀ item ∈ items, item.Sendable lowering) (holds : conn.Holds items) :
    (∃ dropped left, items = dropped ++ (((call.run lowering conn).1.map Item.message).toList ++ left) ∧ bodies dropped = [] ∧
      (call.run lowering conn).2.Holds left) ∧
    ((call.run lowering conn).1 = none → call = .attempt ∨ bodies items = []) := by
  obtain ⟨arrives, bytes⟩ := holds_iff.mp holds
  have fine := not_spoiled_wire sendable bytes
  cases call with
  | read =>
    obtain ⟨dropped, left, split, blocks, rest⟩ := (readLoop_consumes fine).items sendable bytes
    refine ⟨⟨dropped, left, split, blocks, holds_iff.mpr ⟨fun chunk member => ?_, rest⟩⟩, fun nothing => .inr ?_⟩
    · exact arrives chunk (readLoop_source _ _ member)
    · exact readLoop_nothing sendable arrives bytes nothing
  | attempt =>
    have first := extractLoop_consumes le_rfl fun spoiled => fine (spoiled.arriving _)
    have consumes : Consumes lowering conn.stream (tryMessage lowering conn).1 (tryMessage lowering conn).2.stream := by
      cases taken : (tryMessage lowering conn).1 with
      | none => exact first.ends taken _
      | some body => exact first.arriving taken _
    obtain ⟨dropped, left, split, blocks, rest⟩ := consumes.items sendable bytes
    exact ⟨⟨dropped, left, split, blocks, holds_iff.mpr ⟨arrives, rest⟩⟩, fun _ => .inl rfl⟩

/-- Any calls answer the messages in their order and leave the connection at the start of an item; every read has its message as long as
there are any. -/
theorem runCalls_holds (calls : List Call) (sendable : ∀ item ∈ items, item.Sendable lowering) (holds : conn.Holds items) :
    ∃ done rest, items = done ++ rest ∧ (runCalls lowering calls conn).1.reduceOption = bodies done ∧
      (runCalls lowering calls conn).2.Holds rest ∧ (bodies rest = [] ∨ calls.count .read ≤ (bodies done).length) := by
  induction calls generalizing conn items with
  | nil => exact ⟨[], items, rfl, rfl, holds, .inr (Nat.le_refl 0)⟩
  | cons call calls ih =>
    obtain ⟨⟨dropped, left, split, blocks, holds'⟩, silent⟩ := call.run_holds sendable holds
    rw [runCalls]
    generalize call.run lowering conn = answer at split holds' silent
    obtain ⟨answer, conn'⟩ := answer
    obtain ⟨done, rest, rfl, returned, behind, reads⟩ :=
      ih (fun item member => sendable item (by simp [split, member])) holds'
    have counted : (call :: calls).count .read ≤ calls.count .read + 1 := by
      rw [List.count_cons]
      split <;> omega
    refine ⟨dropped ++ ((answer.map Item.message).toList ++ done), rest, by simp [split], ?_, behind, ?_⟩
    · rw [bodies_append, blocks, bodies_append, ← returned]
      cases answer <;> rfl
    · rw [bodies_append, blocks, bodies_append]
      cases answer with
      | some body => exact reads.imp_right fun fewer => counted.trans (Nat.succ_le_succ fewer)
      | none =>
        obtain rfl | none := silent rfl
        · rw [List.count_cons_of_ne (by decide)]
          exact reads
        · simp only [split, bodies_append, List.append_eq_nil_iff] at none
          exact .inl none.2.2.2

end

end Thera.Lsp
