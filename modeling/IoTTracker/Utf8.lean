import IoTTracker.QtText

/-!
# Text as characters

A `QString` that holds text is the UTF-16 form of a list of characters, and
`toUtf8` and `fromUtf8` go between it and the UTF-8 form of the same list. The
newline and the zero character have one byte in UTF-8, which no other character
has a part in, so a line of text is a line of bytes. `TextCodec.utf8` is a codec
with these properties.
-/

namespace IoTTracker

namespace QString

def utf16Char (c : Char) : List QChar :=
  if c.toNat < 0x10000 then [UInt16.ofNat c.toNat]
  else
    [UInt16.ofNat (0xd800 + (c.toNat - 0x10000) / 0x400),
      UInt16.ofNat (0xdc00 + (c.toNat - 0x10000) % 0x400)]

def utf16 (chars : List Char) : QString := chars.flatMap utf16Char

end QString

def QByteArray.utf8 (chars : List Char) : QByteArray := chars.flatMap String.utf8EncodeChar

/-- `toUtf8` and `fromUtf8` on text. At the beginning of its input `fromUtf8`
    takes a byte order mark for no part of the text. -/
structure TextCodec.IsUtf8 (codec : TextCodec) : Prop where
  toUtf8_utf16 : ∀ chars, codec.toUtf8 (QString.utf16 chars) = QByteArray.utf8 chars
  fromUtf8_utf8 : ∀ chars, chars.head? ≠ some '\ufeff' →
    codec.fromUtf8 (QByteArray.utf8 chars) = QString.utf16 chars

namespace QString

/-- A text that one line can carry. -/
def LineText (text : QString) : Prop :=
  ∃ chars : List Char, text = utf16 chars ∧ '\n' ∉ chars ∧ '\x00' ∉ chars

theorem utf16_append (chars chars' : List Char) :
    utf16 (chars ++ chars') = utf16 chars ++ utf16 chars' :=
  List.flatMap_append

theorem utf16_eq_ofChars {chars : List Char} (hchars : ∀ c ∈ chars, c.toNat < 0x10000) :
    utf16 chars = ofChars chars := by
  induction chars with
  | nil => rfl
  | cons c chars ih =>
      rw [List.forall_mem_cons] at hchars
      rw [utf16, List.flatMap_cons, utf16Char, if_pos hchars.1, ← utf16, ih hchars.2]
      rfl

end QString

/-! ### Lines of text are lines of bytes -/

theorem toNat_of_mem_utf8EncodeChar {c : Char} {byte : UInt8}
    (hbyte : byte ∈ String.utf8EncodeChar c) (hlt : byte.toNat < 128) :
    c.toNat = byte.toNat := by
  unfold String.utf8EncodeChar at hbyte
  dsimp only at hbyte
  change c.val.toNat = byte.toNat
  split_ifs at hbyte with hone htwo hthree
  · rw [List.mem_singleton.mp hbyte, UInt8.toNat_ofNat']
    omega
  all_goals
    simp only [List.mem_cons, List.not_mem_nil, or_false] at hbyte
    rcases hbyte with rfl | rfl | rfl | rfl <;>
      simp only [UInt8.toNat_ofNat'] at hlt <;> omega

theorem mem_of_mem_utf8 {chars : List Char} {byte : UInt8} (hbyte : byte ∈ QByteArray.utf8 chars)
    (hlt : byte.toNat < 128) : Char.ofNat byte.toNat ∈ chars := by
  obtain ⟨c, hc, hmem⟩ := List.mem_flatMap.mp hbyte
  rw [← toNat_of_mem_utf8EncodeChar hmem hlt, Char.ofNat_toNat]
  exact hc

theorem zero_notMem_utf8 {chars : List Char} (hzero : '\x00' ∉ chars) :
    0 ∉ QByteArray.utf8 chars :=
  fun hmem => hzero (mem_of_mem_utf8 hmem (by decide))

theorem newline_notMem_utf8 {chars : List Char} (hnewline : '\n' ∉ chars) :
    0x0a ∉ QByteArray.utf8 chars :=
  fun hmem => hnewline (mem_of_mem_utf8 hmem (by decide))

/-- **Sending a line of text and reading it back.** -/
theorem TextCodec.IsUtf8.chop_fromByteArray {codec : TextCodec} (hcodec : codec.IsUtf8)
    {chars : List Char} (hzero : '\x00' ∉ chars) (hmark : chars.head? ≠ some '\ufeff') :
    QString.chop (codec.fromByteArray (QByteArray.utf8 chars ++ [0x0a])) =
      QString.utf16 chars := by
  have hbytes : QByteArray.utf8 chars ++ [0x0a] = QByteArray.utf8 (chars ++ ['\n']) := by
    rw [QByteArray.utf8, QByteArray.utf8, List.flatMap_append]
    rfl
  have hzeroLine : '\x00' ∉ chars ++ ['\n'] := by
    simp [hzero]
  have hmarkLine : (chars ++ ['\n']).head? ≠ some '\ufeff' := by
    cases chars with
    | nil => decide
    | cons c chars => exact hmark
  rw [hbytes, codec.fromByteArray_of_notMem (zero_notMem_utf8 hzeroLine),
    hcodec.fromUtf8_utf8 _ hmarkLine, QString.utf16_append]
  exact List.dropLast_concat

theorem TextCodec.IsUtf8.toUtf8_ofLines {codec : TextCodec} (hcodec : codec.IsUtf8)
    (lines : List (List Char)) :
    codec.toUtf8 (QString.ofLines (lines.map QString.utf16)) =
      lines.flatMap fun chars => QByteArray.utf8 chars ++ [0x0a] := by
  have htext : QString.ofLines (lines.map QString.utf16) =
      QString.utf16 (lines.flatMap fun chars => chars ++ ['\n']) := by
    rw [QString.ofLines, QString.utf16, List.flatMap_map, List.flatMap_assoc]
    apply List.flatMap_congr
    intro chars _
    rw [List.flatMap_append]
    rfl
  rw [htext, hcodec.toUtf8_utf16, QByteArray.utf8, List.flatMap_assoc]
  apply List.flatMap_congr
  intro chars _
  rw [List.flatMap_append]
  rfl

/-! ### A UTF-8 codec -/

def QString.charsOf : QString → List Char
  | high :: low :: rest =>
      if 0xd800 ≤ high ∧ high < 0xdc00 then
        Char.ofNat (0x10000 + (high.toNat - 0xd800) * 0x400 + (low.toNat - 0xdc00)) ::
          charsOf rest
      else Char.ofNat high.toNat :: charsOf (low :: rest)
  | [c] => [Char.ofNat c.toNat]
  | [] => []

theorem QString.charsOf_cons {c : QChar} (hc : ¬ (0xd800 ≤ c ∧ c < 0xdc00)) (rest : QString) :
    charsOf (c :: rest) = Char.ofNat c.toNat :: charsOf rest := by
  cases rest with
  | nil => rfl
  | cons next rest => rw [charsOf, if_neg hc]

theorem QString.charsOf_utf16 (chars : List Char) : charsOf (utf16 chars) = chars := by
  induction chars with
  | nil => rfl
  | cons c chars ih =>
      have hvalid : c.toNat < 0xd800 ∨ 0xdfff < c.toNat ∧ c.toNat < 0x110000 := c.valid
      rw [utf16, List.flatMap_cons, ← utf16, utf16Char]
      by_cases hplane : c.toNat < 0x10000
      · have htoNat : (UInt16.ofNat c.toNat).toNat = c.toNat := by
          rw [UInt16.toNat_ofNat']
          omega
        rw [if_pos hplane, List.singleton_append, charsOf_cons, htoNat, Char.ofNat_toNat, ih]
        simp only [UInt16.le_iff_toNat_le, UInt16.lt_iff_toNat_lt, htoNat, UInt16.reduceToNat]
        omega
      · have hhigh : (UInt16.ofNat (0xd800 + (c.toNat - 0x10000) / 0x400)).toNat =
            0xd800 + (c.toNat - 0x10000) / 0x400 := by
          rw [UInt16.toNat_ofNat']
          omega
        have hlow : (UInt16.ofNat (0xdc00 + (c.toNat - 0x10000) % 0x400)).toNat =
            0xdc00 + (c.toNat - 0x10000) % 0x400 := by
          rw [UInt16.toNat_ofNat']
          omega
        rw [if_neg hplane, List.cons_append, List.singleton_append, charsOf, if_pos, hhigh, hlow,
          ih]
        · have hcode : 0x10000 + (0xd800 + (c.toNat - 0x10000) / 0x400 - 0xd800) * 0x400 +
              (0xdc00 + (c.toNat - 0x10000) % 0x400 - 0xdc00) = c.toNat := by
            omega
          rw [hcode, Char.ofNat_toNat]
        · simp only [UInt16.le_iff_toNat_le, UInt16.lt_iff_toNat_lt, hhigh, UInt16.reduceToNat]
          omega

/-- UTF-8 on text; what is no text is no input it is meant for. -/
def TextCodec.utf8 : TextCodec where
  toUtf8 text := QByteArray.utf8 text.charsOf
  fromUtf8 bytes :=
    match (bytes.toByteArray.utf8Decode?).map Array.toList with
    | none => []
    | some ('\ufeff' :: chars) => QString.utf16 chars
    | some chars => QString.utf16 chars

theorem TextCodec.utf8_isUtf8 : TextCodec.utf8.IsUtf8 where
  toUtf8_utf16 chars := congrArg QByteArray.utf8 (QString.charsOf_utf16 chars)
  fromUtf8_utf8 chars hmark := by
    have hdecode : ((QByteArray.utf8 chars).toByteArray.utf8Decode?).map Array.toList =
        some chars := by
      change (chars.utf8Encode.utf8Decode?).map Array.toList = some chars
      rw [List.utf8Decode?_utf8Encode]
      rfl
    simp only [utf8, hdecode]
    split
    · rename_i hnone
      cases hnone
    · rename_i rest hsome
      rw [Option.some.inj hsome] at hmark
      exact absurd rfl hmark
    · rename_i hsome
      rw [Option.some.inj hsome]

end IoTTracker
