import ByteGrammar.Grammar.File
import Mathlib

/-!
# Places in a source text

A fault is found behind a number of bytes, reported as a line and a column, and shown at a byte again.
`byte_offset_inverts_position` says which byte this is: the last one of those in front of the fault, or the
next one where a line has just begun. Positions that no text has lead to a byte of the text as well, also
where a sum wraps around. `byte_offset_of_fits` says what a position leads to when none does.
-/

namespace ByteGrammar.Json

/-- The bytes of a list of characters in UTF-8. -/
def utf8Bytes (text : List Char) : List UInt8 :=
  text.flatMap String.utf8EncodeChar

/-- The bytes behind the last line break, or all if there is none. -/
def lastLine (front : List UInt8) : List UInt8 :=
  (front.reverse.takeWhile (· ≠ 10)).reverse

/-- The position behind given bytes, by counting their line breaks and the bytes of their last line. -/
def Position.behind (front : List UInt8) : Position :=
  ⟨1 + front.count 10, (lastLine front).length⟩

section Bytes

/-- The line break is the only character with a byte that is one. -/
theorem line_break_mem_bytes_iff {c : Char} : 10 ∈ String.utf8EncodeChar c ↔ c = '\n' := by
  constructor
  · intro h
    have hten (value : Nat) : 10 = UInt8.ofNat value ↔ 10 = value % 256 := by
      rw [← UInt8.toNat_inj, UInt8.toNat_ofNat']
      rfl
    have hvalue : c.val.toNat = 10 := by
      revert h
      -- The bytes of longer characters are at least 128.
      fun_cases String.utf8EncodeChar c <;>
        simp only [List.mem_cons, List.not_mem_nil, or_false, hten] <;> omega
    exact Char.ext (UInt32.toNat_inj.mp hvalue)
  · rintro rfl
    decide

/-- A part of a character holds no line break. -/
theorem line_break_notMem_part {c : Char} {count : Nat} (h : count < c.utf8Size) :
    10 ∉ (String.utf8EncodeChar c).take count := by
  intro hmem
  obtain rfl := line_break_mem_bytes_iff.mp (List.mem_of_mem_take hmem)
  obtain rfl : count = 0 := Nat.lt_one_iff.mp h
  simp at hmem

/-- The sizes of the characters add up to the number of bytes. -/
theorem byte_count_eq_length (text : List Char) : byteCount text = (utf8Bytes text).length := by
  have hfold (passed : Nat) : text.foldl (fun count c => count + c.utf8Size) passed =
      passed + (utf8Bytes text).length := by
    induction text generalizing passed with
    | nil => rfl
    | cons c text ih =>
        rw [List.foldl_cons, ih, utf8Bytes, utf8Bytes, List.flatMap_cons, List.length_append,
          String.length_utf8EncodeChar, Nat.add_assoc]
  simpa [byteCount] using hfold 0

/-- The bytes of a string are those of its characters. -/
theorem to_utf8_eq_bytes (source : String) : source.toUTF8.data.toList = utf8Bytes source.toList := by
  rw [String.toUTF8_eq_toByteArray, ← String.utf8Encode_toList]
  simp [List.utf8Encode, utf8Bytes]

/-- A string has as many bytes as are counted in its characters. -/
theorem size_to_utf8 (source : String) : source.toUTF8.size = byteCount source.toList := by
  rw [byte_count_eq_length, ← to_utf8_eq_bytes]
  rfl

/-- The first bytes of a text end inside its first character. -/
theorem take_bytes_of_lt {c : Char} {count : Nat} (h : count < c.utf8Size) (text : List Char) :
    (utf8Bytes (c :: text)).take count = (String.utf8EncodeChar c).take count := by
  rw [utf8Bytes, List.flatMap_cons, List.take_append_of_le_length]
  rw [String.length_utf8EncodeChar]
  exact h.le

/-- The first bytes of a text hold its first character. -/
theorem take_bytes_of_le {c : Char} {count : Nat} (h : c.utf8Size ≤ count) (text : List Char) :
    (utf8Bytes (c :: text)).take count =
      String.utf8EncodeChar c ++ (utf8Bytes text).take (count - c.utf8Size) := by
  rw [utf8Bytes, List.flatMap_cons, List.take_append, String.length_utf8EncodeChar,
    List.take_of_length_le, utf8Bytes]
  rw [String.length_utf8EncodeChar]
  exact h

end Bytes

section LastLine

variable {right : List UInt8}

/-- Bytes without a line break are one line. -/
theorem last_line_of_notMem (h : 10 ∉ right) : lastLine right = right := by
  rw [lastLine, List.takeWhile_eq_self_iff.mpr, List.reverse_reverse]
  intro byte hbyte
  simpa using fun heq : byte = 10 => h (heq ▸ List.mem_reverse.mp hbyte)

/-- The last line begins behind the last line break. -/
theorem last_line_behind_break (left : List UInt8) (h : 10 ∉ right) :
    lastLine (left ++ 10 :: right) = right := by
  rw [lastLine, List.reverse_append, List.reverse_cons, List.append_assoc,
    List.takeWhile_append_of_pos, List.reverse_append]
  · simp
  · intro byte hbyte
    simpa using fun heq : byte = 10 => h (heq ▸ List.mem_reverse.mp hbyte)

/-- Bytes with a line break have a last one. -/
theorem exists_last_break (h : 10 ∈ right) :
    ∃ front line, right = front ++ 10 :: line ∧ 10 ∉ line := by
  obtain ⟨line, front, heq, hline⟩ := List.eq_append_cons_of_mem (List.mem_reverse.mpr h)
  refine ⟨front.reverse, line.reverse, ?_, by simpa using hline⟩
  rw [← List.reverse_reverse right, heq]
  simp

/-- What stands in front of a line break does not count. -/
theorem last_line_append_of_mem (left : List UInt8) (h : 10 ∈ right) :
    lastLine (left ++ right) = lastLine right := by
  obtain ⟨front, line, rfl, hline⟩ := exists_last_break h
  rw [← List.append_assoc, last_line_behind_break _ hline, last_line_behind_break _ hline]

/-- A line break in front of bytes leaves their last line. -/
theorem last_line_break_cons : lastLine (10 :: right) = lastLine right := by
  by_cases h : 10 ∈ right
  · exact last_line_append_of_mem [10] h
  · rw [last_line_of_notMem h]
    exact last_line_behind_break [] h

end LastLine

section Counting

/-- The position one byte further. -/
def Position.next (position : Position) (byte : UInt8) : Position :=
  if byte = 10 then ⟨position.line + 1, 0⟩ else { position with column := position.column + 1 }

/-- Bytes without a line break stay on a line. -/
theorem foldl_next_of_notMem {front : List UInt8} (h : 10 ∉ front) (position : Position) :
    front.foldl Position.next position =
      { position with column := position.column + front.length } := by
  induction front generalizing position with
  | nil => rfl
  | cons byte front ih =>
      obtain ⟨hbyte, hfront⟩ : 10 ≠ byte ∧ 10 ∉ front := by simpa using h
      rw [List.foldl_cons, Position.next, if_neg hbyte.symm, ih hfront, List.length_cons]
      simp only [Nat.add_assoc, Nat.add_comm 1]

/-- Counting byte by byte leads to the position behind the bytes. -/
theorem foldl_next_eq_behind (front : List UInt8) :
    front.foldl Position.next ⟨1, 0⟩ = Position.behind front := by
  induction front using List.reverseRecOn with
  | nil => rfl
  | append_singleton front byte ih =>
      rw [List.foldl_append, ih, List.foldl_cons, List.foldl_nil, Position.next, Position.behind,
        Position.behind, List.count_append]
      by_cases hbyte : byte = 10
      · subst hbyte
        rw [if_pos rfl, last_line_behind_break _ List.not_mem_nil]
        rfl
      · rw [if_neg hbyte]
        simp [lastLine, hbyte]

/-- Counting character by character is counting byte by byte. -/
theorem advance_eq_foldl (text : List Char) (offset : Nat) (position : Position) :
    Position.advance text offset position =
      ((utf8Bytes text).take offset).foldl Position.next position := by
  induction text generalizing offset position with
  | nil => simp [Position.advance, utf8Bytes]
  | cons c text ih =>
      rw [Position.advance]
      by_cases hsize : offset < c.utf8Size
      · rw [if_pos hsize, take_bytes_of_lt hsize, foldl_next_of_notMem (line_break_notMem_part hsize),
          List.length_take, String.length_utf8EncodeChar, Nat.min_eq_left hsize.le]
      · rw [if_neg hsize, take_bytes_of_le (Nat.le_of_not_lt hsize), List.foldl_append, ih, ih]
        by_cases hbreak : c = '\n'
        · subst hbreak
          rfl
        · rw [if_neg hbreak, foldl_next_of_notMem (line_break_mem_bytes_iff.not.mpr hbreak),
            String.length_utf8EncodeChar]

/-- The position after a number of bytes is the position behind them. -/
theorem of_offset_eq_behind (text : List Char) (offset : Nat) :
    Position.ofOffset text offset = Position.behind ((utf8Bytes text).take offset) :=
  (advance_eq_foldl text offset ⟨1, 0⟩).trans (foldl_next_eq_behind _)

end Counting

section Offsets

/-- The bytes of the lines in front of a position and its column are the bytes in front of it. -/
theorem bytes_of_lines_add_column (text : List Char) {offset : Nat} (h : offset ≤ (utf8Bytes text).length)
    (passed : Nat) :
    bytesOfLines (((utf8Bytes text).take offset).count 10) text passed +
      (lastLine ((utf8Bytes text).take offset)).length = passed + offset := by
  induction text generalizing offset passed with
  | nil =>
      obtain rfl : offset = 0 := Nat.le_zero.mp h
      rfl
  | cons c text ih =>
      by_cases hsize : offset < c.utf8Size
      · have hpart := line_break_notMem_part hsize
        rw [take_bytes_of_lt hsize, List.count_eq_zero_of_not_mem hpart, last_line_of_notMem hpart,
          List.length_take, String.length_utf8EncodeChar, Nat.min_eq_left hsize.le]
        rfl
      · have hle : c.utf8Size ≤ offset := Nat.le_of_not_lt hsize
        have hrest : offset - c.utf8Size ≤ (utf8Bytes text).length := by
          rw [utf8Bytes, List.flatMap_cons, List.length_append, String.length_utf8EncodeChar] at h
          exact Nat.sub_le_iff_le_add'.mpr h
        have hlength : ((utf8Bytes text).take (offset - c.utf8Size)).length = offset - c.utf8Size :=
          List.length_take_of_le hrest
        have hadd := ih hrest (passed + c.utf8Size)
        rw [take_bytes_of_le hle]
        generalize (utf8Bytes text).take (offset - c.utf8Size) = behind at hadd hlength ⊢
        by_cases hbreak : c = '\n'
        · subst hbreak
          have hbytes : String.utf8EncodeChar '\n' ++ behind = 10 :: behind := rfl
          rw [hbytes, List.count_cons_self, last_line_break_cons, bytesOfLines, if_pos rfl, hadd]
          omega
        · have hbytes : 10 ∉ String.utf8EncodeChar c := line_break_mem_bytes_iff.not.mpr hbreak
          rw [List.count_append, List.count_eq_zero_of_not_mem hbytes, Nat.zero_add]
          by_cases hmem : 10 ∈ behind
          · obtain ⟨count, hcount⟩ := Nat.exists_eq_add_of_lt (List.count_pos_iff.mpr hmem)
            rw [last_line_append_of_mem _ hmem]
            rw [hcount] at hadd ⊢
            rw [bytesOfLines, if_neg hbreak, hadd]
            omega
          · rw [List.count_eq_zero_of_not_mem hmem, bytesOfLines,
              last_line_of_notMem (by simp [hbytes, hmem]), List.length_append,
              String.length_utf8EncodeChar, hlength]
            omega

/-- The bytes of a text are those of its first character and those behind it. -/
theorem byte_count_cons (c : Char) (text : List Char) :
    byteCount (c :: text) = c.utf8Size + byteCount text := by
  rw [byte_count_eq_length, byte_count_eq_length, utf8Bytes, List.flatMap_cons, List.length_append,
    String.length_utf8EncodeChar, utf8Bytes]

/-- The first lines of a text have no more bytes than the text. -/
theorem bytes_of_lines_le (count : Nat) (text : List Char) (passed : Nat) :
    bytesOfLines count text passed ≤ passed + byteCount text := by
  induction text generalizing count passed with
  | nil => cases count <;> exact Nat.le_add_right ..
  | cons c text ih =>
      cases count with
      | zero => exact Nat.le_add_right ..
      | succ count =>
          rw [bytesOfLines, byte_count_cons, ← Nat.add_assoc]
          exact ih _ _

/-- A sum that fits into a machine word is the sum of the numbers, whatever becomes of others. -/
theorem Overflow.add_of_fits (overflow : Overflow) {first second : UInt64}
    (h : first.toNat + second.toNat < UInt64.size) :
    overflow.add first second = .ok (.ofNat (first.toNat + second.toNat)) := by
  have hsum : first + second = .ofNat (first.toNat + second.toNat) := by
    rw [UInt64.ofNat_add, UInt64.ofNat_toNat, UInt64.ofNat_toNat]
  cases overflow with
  | wraps => exact congrArg Except.ok hsum
  | stops => rw [add, if_pos h, hsum]

/-- The word before one is one less, except for zero. -/
theorem to_nat_word_before (word : UInt64) : (wordBefore word).toNat = word.toNat - 1 := by
  rw [wordBefore]
  split
  next h => rw [h]; rfl
  next h =>
    refine UInt64.toNat_sub_of_le _ _ (UInt64.le_iff_toNat_le.mpr ?_)
    exact Nat.one_le_iff_ne_zero.mpr fun hzero => h (UInt64.toNat_inj.mp hzero)

/-- The byte that a position leads to comes from the one sum that can be too large. -/
theorem byte_offset_eq_map (overflow : Overflow) {source : String} {line : UInt64} (hline : line ≠ 0)
    (column : UInt64) :
    byteOffset overflow source.toList line column =
      (overflow.add (.ofNat (bytesOfLines (line.toNat - 1) source.toList 0)) (wordBefore column)).map
        fun offset => some (min offset (.ofNat source.toUTF8.size)) := by
  have hbefore : (line - 1).toNat = line.toNat - 1 := by
    rw [← to_nat_word_before, wordBefore, if_neg hline]
  rw [byteOffset, if_neg hline, hbefore, size_to_utf8]
  rfl

section Words

variable {source : String} (hsize : source.toUTF8.size < 2 ^ 63)

include hsize

/-- A number of bytes of a text in memory, and one more, is a machine word. -/
theorem to_nat_of_le_size {count : Nat} (h : count ≤ source.toUTF8.size + 1) :
    (UInt64.ofNat count).toNat = count := by
  refine UInt64.toNat_ofNat_of_lt' ?_
  show count < 2 ^ 64
  omega

/-- Where a line of a text in memory starts is a machine word. -/
theorem to_nat_line_start (count : Nat) :
    (UInt64.ofNat (bytesOfLines count source.toList 0)).toNat =
      bytesOfLines count source.toList 0 := by
  have hle := bytes_of_lines_le count source.toList 0
  rw [← size_to_utf8, Nat.zero_add] at hle
  exact to_nat_of_le_size hsize (hle.trans (Nat.le_succ _))

/-- The byte that a position leads to, when the start of its line and its column fit a machine word
together. -/
theorem byte_offset_of_fits (overflow : Overflow) {line column : UInt64} (hline : line ≠ 0)
    (hfits : bytesOfLines (line.toNat - 1) source.toList 0 + (column.toNat - 1) < UInt64.size) :
    byteOffset overflow source.toList line column =
      .ok (some (.ofNat (min (bytesOfLines (line.toNat - 1) source.toList 0 + (column.toNat - 1))
        source.toUTF8.size))) := by
  have hmin : min (UInt64.ofNat (bytesOfLines (line.toNat - 1) source.toList 0 + (column.toNat - 1)))
      (.ofNat source.toUTF8.size) =
        .ofNat (min (bytesOfLines (line.toNat - 1) source.toList 0 + (column.toNat - 1))
          source.toUTF8.size) := by
    refine UInt64.toNat_inj.mp ?_
    rw [UInt64.toNat_min, UInt64.toNat_ofNat_of_lt' hfits, to_nat_of_le_size hsize (Nat.le_succ _),
      to_nat_of_le_size hsize ((Nat.min_le_right _ _).trans (Nat.le_succ _))]
  rw [byte_offset_eq_map overflow hline, overflow.add_of_fits, to_nat_line_start hsize,
    to_nat_word_before, Except.map, hmin]
  rwa [to_nat_line_start hsize, to_nat_word_before]

/-- The position behind the first bytes of a text leads to the last of them, or to the next one where a
line has just begun. -/
theorem byte_offset_behind (overflow : Overflow) {offset : Nat} (h : offset ≤ source.toUTF8.size) :
    let position := Position.behind (source.toUTF8.data.toList.take offset)
    byteOffset overflow source.toList (.ofNat position.line) (.ofNat position.column) =
      .ok (some (.ofNat (if position.column = 0 then offset else offset - 1))) := by
  intro position
  have hadd : bytesOfLines (position.line - 1) source.toList 0 + position.column = offset := by
    have hbytes := bytes_of_lines_add_column source.toList
      (byte_count_eq_length _ ▸ size_to_utf8 source ▸ h) 0
    rw [← to_utf8_eq_bytes, Nat.zero_add] at hbytes
    simpa [position, Position.behind] using hbytes
  have hbreaks : (source.toUTF8.data.toList.take offset).count 10 ≤ offset :=
    List.count_le_length.trans (List.length_take_le _ _)
  have hline : (UInt64.ofNat position.line).toNat = position.line :=
    to_nat_of_le_size hsize (by show 1 + _ ≤ _; omega)
  have hcolumn : (UInt64.ofNat position.column).toNat = position.column :=
    to_nat_of_le_size hsize (by omega)
  have hnonzero : UInt64.ofNat position.line ≠ 0 := by
    intro hzero
    have hfirst : position.line = 0 := hline.symm.trans (congrArg UInt64.toNat hzero)
    simp [position, Position.behind] at hfirst
  have hfits : bytesOfLines (position.line - 1) source.toList 0 + (position.column - 1) <
      UInt64.size := by
    show _ < 2 ^ 64
    omega
  rw [byte_offset_of_fits hsize overflow hnonzero (by rwa [hline, hcolumn]), hline, hcolumn]
  split <;> congr 3 <;> omega

end Words

/-- Where reading fails, the position is that behind some bytes of the text. -/
theorem position_of_run_error {α : Type} {reader : Reader α} {source : String} {error : ReadError}
    (h : reader.run source = .error error) :
    ∃ offset ≤ source.toUTF8.size,
      error.position = Position.behind (source.toUTF8.data.toList.take offset) := by
  rw [Reader.run] at h
  split at h
  · cases h
  · rw [← Except.error.inj h, size_to_utf8, to_utf8_eq_bytes]
    exact ⟨_, Nat.sub_le _ _, of_offset_eq_behind _ _⟩

end Offsets

end ByteGrammar.Json

namespace ByteGrammar

/-- A report of a text that is no grammar shows a byte of this text or its end: the last byte that was
read, or the first one of a line if none of its bytes was. -/
theorem malformed_shows_byte {source file : String} {error : GrammarError}
    (hsize : source.toUTF8.size < 2 ^ 63) (h : Grammar.parse source file = .error error) :
    ∃ offset ≤ source.toUTF8.size,
      error.offset? = some (if (Json.lastLine (source.toUTF8.data.toList.take offset)).length = 0
        then offset else offset - 1) := by
  rw [Grammar.parse] at h
  split at h
  · cases h
  case h_2 cause hread =>
    obtain ⟨offset, hoffset, hposition⟩ := Json.position_of_run_error hread
    refine ⟨offset, hoffset, ?_⟩
    rw [← Except.error.inj h, GrammarError.offset?, hposition]
    simp only [Json.byte_offset_behind hsize .wraps hoffset]
    refine congrArg some (Json.to_nat_of_le_size hsize ?_)
    split <;> omega

end ByteGrammar
