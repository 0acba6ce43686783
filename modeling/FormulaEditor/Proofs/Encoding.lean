/-
The bytes of a text.

A character that takes up one byte is that byte, and no other byte looks like one: the bytes of a
longer character have numbers of their own.  So a byte that is such a character stands between two
places at which characters begin or end, and a part of a text that is cut out at such bytes is a
part of the text again.

* `Text.isValid_of_getElem?_bytes` — the places on both sides of such a byte;
* `Text.bytes_eq`, `Text.toList_eq_of_bytes` — a text that consists of such characters is its
  bytes;
* `Grammar.IsSum.utf8Size_eq_one` — the texts of formulas are of that kind;
* `Span.IsAligned.fits`, `Span.IsAligned.bytes_slice` — parts of a text are spans of its bytes.
-/
import FormulaEditor.Proofs.Acceptance
import FormulaEditor.Proofs.Lists
import FormulaEditor.Text.Checked

namespace FormulaEditor

namespace Text

variable {text : String} {c : Char} {i : Nat}

/-! ### Single bytes -/

theorem ofUInt8_toUInt8 (h : c.utf8Size = 1) : Char.ofUInt8 c.toUInt8 = c := by
  have hle := UInt32.le_iff_toNat_le.mp (Char.utf8Size_eq_one_iff.mp h)
  refine Char.ext (UInt32.toNat_inj.mp ?_)
  show c.toUInt8.toUInt32.toNat = c.val.toNat
  rw [UInt8.toNat_toUInt32, Char.toUInt8, UInt32.toNat_toUInt8]
  exact Nat.mod_eq_of_lt (Nat.lt_of_le_of_lt hle (by decide))

theorem toUInt8_ofUInt8 (b : UInt8) : (Char.ofUInt8 b).toUInt8 = b := by
  show b.toUInt32.toUInt8 = b
  exact UInt8.toUInt8_toUInt32 b

theorem getElem?_bytes (text : String) (i : Nat) :
    (bytes text)[i]? = text.toByteArray.data[i]?.map Char.ofUInt8 := by
  rw [bytes, Array.getElem?_map]

theorem size_bytes (text : String) : (bytes text).size = text.utf8ByteSize := by
  rw [bytes, Array.size_map]
  rfl

/-- A character of one byte stands between two places of a text. -/
theorem isValid_of_getElem?_bytes (h : (bytes text)[i]? = some c) (hc : c.utf8Size = 1) :
    String.Pos.Raw.IsValid text ⟨i⟩ ∧ String.Pos.Raw.IsValid text ⟨i + 1⟩ := by
  rw [getElem?_bytes, Option.map_eq_some_iff] at h
  obtain ⟨b, hb, rfl⟩ := h
  obtain ⟨hlt, rfl⟩ := Array.getElem?_eq_some_iff.mp hb
  have hstart : String.Pos.Raw.IsValid text ⟨i⟩ := by
    refine String.Pos.Raw.isValid_iff_isUTF8FirstByte.mpr (.inr ⟨hlt, ?_⟩)
    -- the byte is the first one of its own encoding
    have hfirst := UInt8.isUTF8FirstByte_getElem_zero_utf8EncodeChar
      (c := Char.ofUInt8 text.toByteArray.data[i])
    simp only [String.utf8EncodeChar_eq_singleton hc, List.getElem_cons_zero] at hfirst
    have hself := toUInt8_ofUInt8 text.toByteArray.data[i]
    rw [Char.toUInt8] at hself
    rw [hself] at hfirst
    exact hfirst
  refine ⟨hstart, String.Pos.Raw.isValid_iff_isValidUTF8_extract_zero.mpr ⟨hlt, ?_⟩⟩
  have hpush := (String.Pos.Raw.isValid_iff_isValidUTF8_extract_zero.mp hstart).2.push hc
  rw [toUInt8_ofUInt8, ← ByteArray.append_toByteArray_singleton] at hpush
  rw [ByteArray.extract_eq_extract_append_extract i (Nat.zero_le i) (Nat.le_succ i),
    ByteArray.extract_add_one hlt]
  exact hpush

/-! ### Texts of single bytes -/

theorem utf8Encode_eq {l : List Char} (h : ∀ c ∈ l, c.utf8Size = 1) :
    l.utf8Encode = (l.map Char.toUInt8).toByteArray := by
  rw [List.utf8Encode, ← List.flatMap_singleton' (l.map Char.toUInt8), List.flatMap_map]
  exact congrArg _ (List.flatMap_congr fun c hc => String.utf8EncodeChar_eq_singleton (h c hc))

/-- A text all of whose characters take up one byte is its bytes. -/
theorem bytes_eq (h : ∀ c ∈ text.toList, c.utf8Size = 1) : (bytes text).toList = text.toList := by
  rw [bytes, ← String.utf8Encode_toList, utf8Encode_eq h, List.data_toByteArray,
    List.map_toArray, List.map_map, List.toList_toArray]
  exact (List.map_congr_left fun c hc => ofUInt8_toUInt8 (h c hc)).trans (List.map_id _)

/-- A text all of whose bytes are such characters consists of these. -/
theorem toList_eq_of_bytes (h : ∀ c ∈ (bytes text).toList, c.utf8Size = 1) :
    text.toList = (bytes text).toList := by
  have htext : String.ofList (bytes text).toList = text := by
    rw [← String.toByteArray_inj, String.toByteArray_ofList, utf8Encode_eq h, bytes,
      Array.toList_map, List.map_map]
    refine ByteArray.ext ?_
    have hmap : List.map (Char.toUInt8 ∘ Char.ofUInt8) text.toByteArray.data.toList
        = text.toByteArray.data.toList :=
      (List.map_congr_left fun b _ => toUInt8_ofUInt8 b).trans (List.map_id _)
    rw [List.data_toByteArray, hmap, Array.toArray_toList]
  rw [← htext, String.toList_ofList, htext]

end Text

/-- In a formula every character takes up one byte. -/
theorem Grammar.IsSum.utf8Size_eq_one {s : List Char} {ts : List Shape} (h : IsSum s ts) :
    ∀ c ∈ s, c.utf8Size = 1 := by
  intro c hc
  by_contra hsize
  rw [Char.utf8Size_eq_one_iff] at hsize
  refine h.notMem ?_ ?_ hc
  · rintro (⟨_, hle⟩ | ⟨_, hle⟩ | rfl)
    · exact hsize (UInt32.le_trans hle (by decide))
    · exact hsize (UInt32.le_trans hle (by decide))
    · exact hsize (by decide)
  · intro hmem
    simp only [List.mem_cons, List.not_mem_nil, or_false] at hmem
    rcases hmem with rfl | rfl | rfl | rfl <;> exact hsize (by decide)

namespace Text

open Grammar

/-- What is accepted consists of characters of one byte. -/
theorem utf8Size_eq_one_of_accepts {s : List Char} (h : accepts s = true) :
    ∀ c ∈ s, c.utf8Size = 1 := by
  obtain ⟨_, terms, hterms, rfl⟩ := accepts_iff.mp h
  exact hterms.utf8Size_eq_one

/-- It does not matter whether a text is looked at as characters or as bytes. -/
theorem accepts_bytes (text : String) :
    accepts (bytes text).toList = accepts text.toList := by
  rw [Bool.eq_iff_iff]
  constructor
  · intro h
    rwa [toList_eq_of_bytes (utf8Size_eq_one_of_accepts h)]
  · intro h
    rwa [bytes_eq (utf8Size_eq_one_of_accepts h)]

end Text

/-! ### Parts of a text -/

namespace Span.IsAligned

variable {text : String} {span : Span}

theorem fits (h : span.IsAligned text) : span.Fits (Text.bytes text) :=
  ⟨h.start_le, by rw [Text.size_bytes]; exact h.stop.le_utf8ByteSize⟩

/-- The bytes of a part are those of the span. -/
theorem bytes_slice (h : span.IsAligned text) :
    (Text.bytes (Text.slice h)).toList = span.chars (Text.bytes text) := by
  rw [Text.slice, Text.bytes, String.toByteArray_extract, String.offset_pos, String.offset_pos,
    ByteArray.data_extract, Span.chars, Text.bytes, Array.map_extract]

/-- A part that is accepted consists of the bytes of the span. -/
theorem slice_eq (h : span.IsAligned text)
    (hyes : Text.accepts (span.chars (Text.bytes text)) = true) :
    Text.slice h = String.ofList (span.chars (Text.bytes text)) := by
  have hchars := Text.toList_eq_of_bytes (h.bytes_slice ▸ Text.utf8Size_eq_one_of_accepts hyes)
  rw [← h.bytes_slice, ← hchars, String.ofList_toList]

theorem whole (text : String) : (Span.whole (Text.bytes text)).IsAligned text := by
  refine ⟨Nat.zero_le _, String.Pos.Raw.isValid_zero, ?_⟩
  rw [Span.whole, Text.size_bytes]
  exact String.Pos.Raw.isValid_rawEndPos

/-- Where there is a character of one byte, the span can be cut. -/
theorem isValid_of_getElem? (h : span.IsAligned text) {c : Char} {i : Nat}
    (hi : (span.chars (Text.bytes text))[i]? = some c) (hc : c.utf8Size = 1) :
    String.Pos.Raw.IsValid text ⟨span.start + i⟩ ∧
      String.Pos.Raw.IsValid text ⟨span.start + i + 1⟩ := by
  obtain ⟨hlt, _⟩ := List.getElem?_eq_some_iff.mp hi
  rw [h.fits.length_chars] at hlt
  refine Text.isValid_of_getElem?_bytes ?_ hc
  rwa [Span.chars_eq, List.getElem?_take_of_lt hlt, List.getElem?_drop,
    Array.getElem?_toList] at hi

theorem before (h : span.IsAligned text) {c : Char} {i : Nat}
    (hi : (span.chars (Text.bytes text))[i]? = some c) (hc : c.utf8Size = 1) :
    (span.before i).IsAligned text :=
  ⟨Nat.le_add_right .., h.start, (h.isValid_of_getElem? hi hc).1⟩

theorem after (h : span.IsAligned text) {c : Char} {i : Nat}
    (hi : (span.chars (Text.bytes text))[i]? = some c) (hc : c.utf8Size = 1) :
    (span.after i).IsAligned text := by
  obtain ⟨hlt, _⟩ := List.getElem?_eq_some_iff.mp hi
  exact ⟨(h.fits.after hlt).start_le, (h.isValid_of_getElem? hi hc).2, h.stop⟩

/-- Parentheses at both ends can be taken off. -/
theorem inside (h : span.IsAligned text)
    (hw : Text.isWrapped (span.chars (Text.bytes text)) = true) :
    span.inside.IsAligned text := by
  have htwo := Text.two_le_of_isWrapped hw
  have hfits := h.fits.inside htwo
  have heq := Text.eq_of_isWrapped hw
  have hlen := h.fits.length_chars
  refine ⟨hfits.start_le, ?_, ?_⟩
  · exact (h.isValid_of_getElem? (c := '(') (i := 0) (by rw [heq]; rfl) (by decide)).2
  · have hlast : (span.chars (Text.bytes text))[(span.chars (Text.bytes text)).length - 1]?
        = some ')' := by
      rw [← List.getLast?_eq_getElem?, heq, List.getLast?_append]
      rfl
    have := (h.isValid_of_getElem? hlast (by decide)).1
    have hstop : span.start + ((span.chars (Text.bytes text)).length - 1) = span.stop - 1 := by
      rw [hlen, Span.length] at htwo ⊢
      omega
    rwa [hstop] at this

end Span.IsAligned

end FormulaEditor
