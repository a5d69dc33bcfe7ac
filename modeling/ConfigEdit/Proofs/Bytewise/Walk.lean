import ConfigEdit.Proofs.Text.Characters
import ConfigEdit.Scan.Cursor

/-!
# Walks over bytes

The readers of this library recur on the characters of a text, and what they
return are parts of it.  A program that keeps a byte offset into the text and
moves it byte by byte has more ways to go wrong: it may leave the text, cut a
character in two, take from an empty count, or go on for ever.  A `Walk` is a
program of this kind, and its outcome tells all of these apart.

An offset at which a part of the text begins that reaches to its end is a
boundary between characters (`Text.IsBoundary`).  At a boundary a walk sees the
first byte of the character there.  The bytes of a character outside ASCII are
all 128 and above, so that no token begins with any of them, and a walk that
steps over such bytes one by one gets to the boundary behind the character
(`Walk.eq_behind`).
-/

namespace ConfigEdit

/-- What no walk over bytes may do. -/
inductive Defect where
  /-- The cursor, or an index, lies past the end of the text. -/
  | outside
  /-- A slice is out of bounds, or it begins or ends inside a character. -/
  | cut
  /-- A counter is taken below zero. -/
  | belowZero
deriving DecidableEq, Repr

/-- Why a walk ends without a result. -/
inductive Halt where
  | refused (error : SyntaxError)
  | broken (defect : Defect)
deriving DecidableEq, Repr

/-- A program over the bytes of a text.  It is `none` if it never ends. -/
abbrev Walk (result : Type) := ExceptT Halt Option result

/-- The offset at which a part of a text begins that reaches to its end. -/
def Text.offsetOf (text rest : Text) : Nat := text.utf8Size - rest.utf8Size

/-- No character of the text lies around the offset. -/
def Text.IsBoundary (text : Text) (offset : Nat) : Prop :=
  ∃ rest, rest <:+ text ∧ text.offsetOf rest = offset

/-- The byte offset at which a pattern occurs first. -/
def Text.find? (pattern : Text) : Text → Option Nat
  | [] => none
  | character :: rest =>
      if pattern.isPrefixOf (character :: rest) then some 0
      else (find? pattern rest).map (character.utf8Size + ·)

namespace Walk

/-- A walk that ends here. -/
def halt {result : Type} (reason : Halt) : Walk result :=
  ExceptT.mk (some (.error reason))

section Moves

variable (text : Text)

/-- The byte at an offset, as the character with this code. -/
def peek (offset : Nat) : Option Char :=
  text.utf8Bytes[offset]?.map Char.ofUInt8

/-- A byte that has to be there. -/
def byteAt (offset : Nat) : Walk Char :=
  match peek text offset with
  | some byte => return byte
  | none => halt (.broken .outside)

/-- The cursor at an offset that has to lie in the text. -/
def moveTo (offset : Nat) : Walk Nat :=
  if offset ≤ text.utf8Size then return offset else halt (.broken .outside)

/-- The offset, or the end of the text if the offset lies behind it. -/
def clamp (offset : Nat) : Nat := min offset text.utf8Size

/-- The cursor one byte on, unless the text is at its end. -/
def bump (offset : Nat) : Nat :=
  if offset < text.utf8Size then offset + 1 else offset

/-- The text between two offsets. -/
def slice (start finish : Nat) : Walk Text :=
  match text.seek start, text.seek finish with
  | (rest, 0), (after, 0) =>
      if start ≤ finish then return rest.upTo after else halt (.broken .cut)
  | _, _ => halt (.broken .cut)

/-- The text from an offset on. -/
def sliceFrom (start : Nat) : Walk Text := slice text start text.utf8Size

/-- A counter less one. -/
def lower : Nat → Walk Nat
  | 0 => halt (.broken .belowZero)
  | count + 1 => return count

/-- The text is refused at an offset. -/
def refuse {result : Type} (offset : Nat) (cause : Cause) : Walk result :=
  halt (.refused (.at text offset cause))

/-- A walk that ends as a reader of characters does, with offsets for the
places. -/
def ofScan {found result : Type} (offsets : found → result) :
    Except Fault found → Walk result
  | .ok found => return offsets found
  | .error fault => halt (.refused (fault.located text))

end Moves

@[simp] theorem halt_bind
    {found result : Type} (reason : Halt) (next : found → Walk result) :
    (halt reason >>= next) = halt reason := rfl

@[simp] theorem refuse_bind {found result : Type} (text : Text) (offset : Nat)
    (cause : Cause) (next : found → Walk result) :
    (refuse text offset cause >>= next) = refuse text offset cause := rfl

section Boundaries

variable {text rest after : Text} {character : Char}

theorem offsetOf_le (text rest : Text) : text.offsetOf rest ≤ text.utf8Size :=
  Nat.sub_le _ _

theorem offsetOf_nil (text : Text) : text.offsetOf [] = text.utf8Size := rfl

theorem offsetOf_self (text : Text) : text.offsetOf text = 0 := Nat.sub_self _

theorem offsetOf_append (before rest : Text) :
    (before ++ rest).offsetOf rest = before.utf8Size := by
  rw [Text.offsetOf, Text.utf8Size_append]
  omega

theorem offsetOf_cons (inside : character :: rest <:+ text) :
    text.offsetOf rest =
      text.offsetOf (character :: rest) + character.utf8Size := by
  have bound := Text.utf8Size_le_of_suffix inside
  rw [Text.utf8Size_cons] at bound
  rw [Text.offsetOf, Text.offsetOf, Text.utf8Size_cons]
  omega

theorem offsetOf_mono (inside : rest <:+ text) (later : after <:+ rest) :
    text.offsetOf rest ≤ text.offsetOf after := by
  have first := Text.utf8Size_le_of_suffix inside
  have second := Text.utf8Size_le_of_suffix later
  rw [Text.offsetOf, Text.offsetOf]
  omega

theorem offsetOf_lt (inside : character :: rest <:+ text) :
    text.offsetOf (character :: rest) < text.utf8Size := by
  have behind := offsetOf_cons inside
  have more := character.utf8Size_pos
  have bound := offsetOf_le text rest
  omega

/-- An offset at a boundary is found again by counting bytes. -/
theorem seek_offsetOf (inside : rest <:+ text) :
    text.seek (text.offsetOf rest) = (rest, 0) := by
  obtain ⟨before, rfl⟩ := inside
  rw [offsetOf_append]
  induction before with
  | nil =>
      cases rest with
      | nil => rfl
      | cons first others => simp [Text.seek, first.utf8Size_pos]
  | cons first others induction =>
      rw [List.cons_append, Text.seek,
        if_neg (by rw [Text.utf8Size_cons]; omega), Text.utf8Size_cons,
        Nat.add_sub_cancel_left]
      exact induction

theorem slice_offsetOf (inside : rest <:+ text) (later : after <:+ rest) :
    slice text (text.offsetOf rest) (text.offsetOf after) =
      return rest.upTo after := by
  rw [slice, seek_offsetOf inside, seek_offsetOf (later.trans inside)]
  exact if_pos (offsetOf_mono inside later)

theorem sliceFrom_offsetOf (inside : rest <:+ text) :
    sliceFrom text (text.offsetOf rest) = return rest := by
  rw [sliceFrom, ← offsetOf_nil, slice_offsetOf inside List.nil_suffix]
  simp [Text.upTo]

@[simp] theorem clamp_offsetOf (text rest : Text) :
    clamp text (text.offsetOf rest) = text.offsetOf rest :=
  Nat.min_eq_left (offsetOf_le text rest)

@[simp] theorem moveTo_offsetOf (text rest : Text) :
    moveTo text (text.offsetOf rest) = return text.offsetOf rest :=
  if_pos (offsetOf_le text rest)

theorem ofScan_ok
    {found result : Type} (offsets : found → result) (value : found) :
    ofScan text offsets (.ok value) = return offsets value := rfl

theorem ofScan_error
    {found result : Type} (offsets : found → result) (fault : Fault) :
    ofScan text offsets (.error fault) =
      refuse text (text.offsetOf fault.site) fault.cause := rfl

end Boundaries

/-! ## Bytes -/

/-- The first byte of a character, as the character with this code. -/
def leadByte (character : Char) : Char :=
  Char.ofUInt8 ((String.utf8EncodeChar character).headD 0)

theorem beyond_of_mem_utf8EncodeChar
    {character : Char} (beyond : 128 ≤ character.toNat) {byte : UInt8}
    (inside : byte ∈ String.utf8EncodeChar character) : 128 ≤ byte.toNat := by
  have code : character.val.toNat = character.toNat := rfl
  simp only [String.utf8EncodeChar, code] at inside
  split at inside
  · omega
  · split at inside
    all_goals try split at inside
    all_goals
      simp only [List.mem_cons, List.not_mem_nil, or_false] at inside
      rcases inside with rfl | rfl | rfl | rfl <;>
        simp only [UInt8.toNat_ofNat'] <;> omega

private theorem toNat_ofUInt8 (byte : UInt8) :
    (Char.ofUInt8 byte).toNat = byte.toNat := rfl

private theorem utf8EncodeChar_of_ascii
    {character : Char} (ascii : character.toNat < 128) :
    String.utf8EncodeChar character = [UInt8.ofNat character.toNat] := by
  have code : character.val.toNat = character.toNat := rfl
  simp only [String.utf8EncodeChar, code]
  rw [if_pos (by omega)]

theorem utf8Size_of_ascii {character : Char} (ascii : character.toNat < 128) :
    character.utf8Size = 1 := by
  rw [← String.length_utf8EncodeChar, utf8EncodeChar_of_ascii ascii,
    List.length_singleton]

/-- Inside ASCII a character is its byte; outside, the first byte is no ASCII
either. -/
theorem leadByte_cases (character : Char) :
    character.toNat < 128 ∧ leadByte character = character ∨
      128 ≤ character.toNat ∧ 128 ≤ (leadByte character).toNat := by
  by_cases ascii : character.toNat < 128
  · refine .inl ⟨ascii, Char.ext (UInt32.toNat_inj.1 ?_)⟩
    change (leadByte character).toNat = character.toNat
    rw [leadByte, utf8EncodeChar_of_ascii ascii, List.headD_cons, toNat_ofUInt8,
      UInt8.toNat_ofNat']
    omega
  · refine .inr ⟨by omega, ?_⟩
    rw [leadByte, toNat_ofUInt8]
    apply beyond_of_mem_utf8EncodeChar (Nat.le_of_not_lt ascii)
    have size := String.length_utf8EncodeChar character
    have more := character.utf8Size_pos
    cases encoded : String.utf8EncodeChar character with
    | nil => simp [encoded] at size; omega
    | cons first others => exact List.mem_cons_self

/-- A property that is the same for all characters outside ASCII does not tell a
character from its first byte. -/
theorem leadByte_congr
    {value : Type} {property : Char → value} {constant : value}
    (beyond : ∀ character : Char,
      128 ≤ character.toNat → property character = constant)
    (character : Char) :
    property (leadByte character) = property character := by
  rcases leadByte_cases character with ⟨-, same⟩ | ⟨outside, lead⟩
  · rw [same]
  · rw [beyond _ outside, beyond _ lead]

theorem ne_of_beyond {character : Char} (mark : Char) (ascii : mark.toNat < 128)
    (beyond : 128 ≤ character.toNat) : character ≠ mark := by
  rintro rfl
  omega

section Classes

variable {character : Char} (beyond : 128 ≤ character.toNat)

include beyond

theorem isGap_beyond : isGap character = false := by
  simp [isGap, ne_of_beyond ' ' (by decide) beyond,
    ne_of_beyond '\t' (by decide) beyond,
    ne_of_beyond '\n' (by decide) beyond,
    ne_of_beyond '\x0c' (by decide) beyond,
    ne_of_beyond '\r' (by decide) beyond]

theorem closerOf?_beyond : closerOf? character = none := by
  rw [closerOf?.eq_def]
  split
  all_goals first | rfl | exact absurd beyond (by decide)

theorem isCloser_beyond : isCloser character = false := by
  simp [isCloser, ne_of_beyond ')' (by decide) beyond,
    ne_of_beyond ']' (by decide) beyond,
    ne_of_beyond '\x7d' (by decide) beyond]

theorem isSeparator_beyond : isSeparator character = false := by
  simp [isSeparator, ne_of_beyond ',' (by decide) beyond,
    ne_of_beyond ';' (by decide) beyond]

theorem isQuotationMark_beyond : isQuotationMark character = false := by
  simp [isQuotationMark, ne_of_beyond '\x27' (by decide) beyond,
    ne_of_beyond '\x22' (by decide) beyond]

theorem isAlpha_beyond : character.isAlpha = false := by
  have letters : 'Z'.val.toNat = 90 ∧ 'z'.val.toNat = 122 := by decide
  have code : character.val.toNat = character.toNat := rfl
  have cases : character.isAlpha =
      (decide (character.val ≥ 'A'.val ∧ character.val ≤ 'Z'.val) ||
        (character.val ≥ 'a'.val && character.val ≤ 'z'.val)) := rfl
  simp only [cases, Bool.or_eq_false_iff, Bool.and_eq_false_iff,
    decide_eq_false_iff_not, UInt32.le_iff_toNat_le]
  omega

theorem isIdentifierStart_beyond : isIdentifierStart character = true := by
  simp [isIdentifierStart, beyond]

theorem isIdentifierPart_beyond : isIdentifierPart character = true := by
  simp [isIdentifierPart, isIdentifierStart_beyond beyond]

theorem isDigit_beyond : character.isDigit = false :=
  isDigit_eq_false_of_identifierStart (isIdentifierStart_beyond beyond)

end Classes

section Bytes

variable {text rest : Text} {character : Char}

theorem length_utf8Bytes (text : Text) :
    text.utf8Bytes.length = text.utf8Size := by
  induction text with
  | nil => rfl
  | cons first others induction =>
      rw [Text.utf8Bytes, List.flatMap_cons, List.length_append,
        String.length_utf8EncodeChar, Text.utf8Size_cons]
      exact congrArg _ induction

theorem utf8Bytes_getElem? (inside : rest <:+ text) (ahead : Nat) :
    text.utf8Bytes[text.offsetOf rest + ahead]? = rest.utf8Bytes[ahead]? := by
  obtain ⟨before, rfl⟩ := inside
  rw [offsetOf_append, Text.utf8Bytes, List.flatMap_append, ← length_utf8Bytes,
    Text.utf8Bytes, List.getElem?_append_right (Nat.le_add_right _ _),
    Nat.add_sub_cancel_left]
  rfl

@[simp] theorem peek_offsetOf_nil (text : Text) :
    peek text (text.offsetOf []) = none := by
  rw [peek, offsetOf_nil, ← length_utf8Bytes,
    List.getElem?_eq_none (Nat.le_refl _), Option.map_none]

theorem lt_of_peek
    {offset : Nat} {byte : Char} (found : peek text offset = some byte) :
    offset < text.utf8Size := by
  obtain ⟨raw, there, -⟩ := Option.map_eq_some_iff.1 found
  rw [← length_utf8Bytes]
  exact (List.getElem?_eq_some_iff.1 there).1

private theorem utf8Bytes_cons_getElem?
    {ahead : Nat} (within : ahead < character.utf8Size) (rest : Text) :
    (Text.utf8Bytes (character :: rest))[ahead]? =
      (String.utf8EncodeChar character)[ahead]? := by
  rw [Text.utf8Bytes, List.flatMap_cons, List.getElem?_append_left]
  rwa [String.length_utf8EncodeChar]

theorem peek_offsetOf_cons (inside : character :: rest <:+ text) :
    peek text (text.offsetOf (character :: rest)) =
      some (leadByte character) := by
  have there := utf8Bytes_getElem? inside 0
  rw [Nat.add_zero, utf8Bytes_cons_getElem? character.utf8Size_pos] at there
  have more : 0 < (String.utf8EncodeChar character).length :=
    String.length_utf8EncodeChar character ▸ character.utf8Size_pos
  rw [peek, there, leadByte, List.getElem?_eq_getElem more, Option.map_some,
    List.headD_eq_head?_getD, List.head?_eq_getElem?,
    List.getElem?_eq_getElem more, Option.getD_some]

/-- The bytes behind the first one of a character are no ASCII. -/
theorem exists_peek_inside (inside : character :: rest <:+ text) (ahead : Nat)
    (behind : 0 < ahead) (within : ahead < character.utf8Size) :
    ∃ byte, peek text (text.offsetOf (character :: rest) + ahead) = some byte ∧
      128 ≤ byte.toNat := by
  have beyond : 128 ≤ character.toNat := by
    refine Nat.le_of_not_lt fun ascii => ?_
    have single := utf8Size_of_ascii ascii
    omega
  have more : ahead < (String.utf8EncodeChar character).length :=
    (String.length_utf8EncodeChar character).symm ▸ within
  refine ⟨Char.ofUInt8 (String.utf8EncodeChar character)[ahead], ?_, ?_⟩
  · rw [peek, utf8Bytes_getElem? inside, utf8Bytes_cons_getElem? within,
      List.getElem?_eq_getElem more, Option.map_some]
  · exact beyond_of_mem_utf8EncodeChar beyond (List.getElem_mem more)

/-- A walk that steps over bytes outside ASCII one by one gets from the first
byte of a character to the boundary behind it. -/
theorem eq_behind
    {state : Type} (walk : Nat → state) (inside : character :: rest <:+ text)
    (steps : ∀ offset byte, peek text offset = some byte → 128 ≤ byte.toNat →
      walk offset = walk (offset + 1)) :
    walk (text.offsetOf (character :: rest) + 1) =
      walk (text.offsetOf rest) := by
  rw [offsetOf_cons inside]
  have reached : ∀ ahead, ahead + 1 ≤ character.utf8Size →
      walk (text.offsetOf (character :: rest) + 1) =
        walk (text.offsetOf (character :: rest) + (ahead + 1)) := by
    intro ahead within
    induction ahead with
    | zero => rfl
    | succ ahead induction =>
        obtain ⟨byte, found, beyond⟩ :=
          exists_peek_inside inside _ ahead.succ_pos within
        rw [induction (by omega), steps _ byte found beyond, Nat.add_assoc]
  have more := character.utf8Size_pos
  have last := reached (character.utf8Size - 1) (by omega)
  rwa [Nat.sub_add_cancel more] at last

theorem offsetOf_of_ascii (inside : character :: rest <:+ text)
    (ascii : character.toNat < 128) :
    text.offsetOf (character :: rest) + 1 = text.offsetOf rest := by
  rw [offsetOf_cons inside, utf8Size_of_ascii ascii]

theorem peek_offsetOf (inside : rest <:+ text) :
    peek text (text.offsetOf rest) = rest.head?.map leadByte := by
  cases rest with
  | nil => exact peek_offsetOf_nil text
  | cons first others => exact peek_offsetOf_cons inside

theorem peek_behind
    (inside : character :: rest <:+ text) (ascii : character.toNat < 128) :
    peek text (text.offsetOf (character :: rest) + 1) =
      rest.head?.map leadByte := by
  rw [offsetOf_of_ascii inside ascii,
    peek_offsetOf ((List.suffix_cons _ _).trans inside)]

end Bytes

end Walk

end ConfigEdit
