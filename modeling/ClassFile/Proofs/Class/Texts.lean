import ClassFile.Proofs.Class.Growing
import ClassFile.Proofs.Text.Surrogates

namespace ClassFile

/-!
# Texts of a class that is encoded again

Text entries of a class file may spell any code units, and only texts survive reading.  The
bytes of a text come back when they are read and written again, and so does the entry in a
class that is encoded again, unless there is a surrogate without its partner.  Such a
surrogate comes back as U+FFFD, and so two entries may become the same.
-/

namespace Constant

theorem textBytes_injective {content other : Bytes} (same : textBytes content = textBytes other) :
    content = other := by
  rw [← drop_textBytes content, same, drop_textBytes]

/-- An entry that is read from the bytes of a text is that text. -/
theorem ReadFrom.of_textBytes {constant : Constant} {content : Bytes}
    (readFrom : constant.ReadFrom (textBytes content)) :
    ∃ text, constant = .utf8 text ∧ ModifiedUtf8.decode content = .ok text := by
  cases constant with
  | utf8 text =>
    rcases readFrom with ⟨other, same, -, decoded⟩
    rw [textBytes_injective same]
    exact ⟨text, rfl, decoded⟩
  | methodRef owner signature ownerIsInterface =>
    rcases bind_eq_ok.1 readFrom with ⟨body, -, last⟩
    cases ownerIsInterface with
    | false => cases last
    | true => cases last
  | _ =>
    rcases bind_eq_ok.1 readFrom with ⟨body, -, last⟩
    cases last

theorem textBytes_of_encode {text : String} {piece : Bytes}
    (encoded : (utf8 text).encode = .ok piece) :
    piece = textBytes (ModifiedUtf8.encode text) := by
  rcases bind_eq_ok.1 encoded with ⟨body, isBody, last⟩
  cases last
  rw [encodeBody] at isBody
  split at isBody
  · cases isBody
    rfl
  · cases isBody

end Constant

namespace ModifiedUtf8

/-- Bytes that spell code units are read as a text.  Written again, the text spells the same units
with U+FFFD for the surrogates that have no partner, so the bytes come back if and only if there
are none.  Two such runs of bytes are one text if and only if they spell the same then.  In a
class that is encoded again in any way the entries that were read keep their places, and this
is what becomes of those with the bytes for their text. -/
theorem decode_spelled {units : List Nat} {bytes : Bytes} (spelled : Spelled units bytes) :
    ∃ text, decode bytes = .ok text ∧ Spelled (Utf16.mend units) (encode text) ∧
      (encode text = bytes ↔ ¬ Utf16.Unpaired units) ∧
      (∀ others otherBytes, Spelled others otherBytes →
        (decode otherBytes = .ok text ↔ Utf16.mend others = Utf16.mend units) ∧
        (¬ Utf16.Unpaired units → ¬ Utf16.Unpaired others → decode otherBytes = .ok text →
          otherBytes = bytes)) ∧
      ∀ (settings : Settings) (cls out : Bytes) (written : Transcript),
        Transcript.read.toEnd.runOn cls = .ok written → settings.reencode cls = .ok out →
          StandsAt 10 (written.entries.map Prod.snd).flatten cls ∧
          ∃ pieces, StandsAt 10 pieces.flatten out ∧
            List.Forall₂ (fun entry piece => entry.1.encode = .ok piece ∧
              (entry.2 = Constant.textBytes bytes → piece = Constant.textBytes (encode text)))
              written.entries pieces := by
  refine ⟨String.ofList (Utf16.decode units), spelled.decode, spelled.encode, spelled.encode_eq_iff,
    fun others otherBytes other => ⟨?_, fun paired paired' same => ?_⟩,
    fun settings cls out written isWritten encoded => ?_⟩
  · rw [← spelled.decode]
    exact other.decode_eq_iff spelled
  · have texts := Except.ok.inj (other.decode.symm.trans same)
    rw [← other.encode_eq_iff.2 paired', texts]
    exact spelled.encode_eq_iff.2 paired
  · have parts := Transcript.takes_standsAt.toEnd isWritten
    rcases Settings.reencode_entries isWritten encoded with ⟨pieces, each, stands⟩
    refine ⟨parts.1, pieces, stands, ?_⟩
    refine (List.forall₂_and_left _ _ |>.2 ⟨parts.2, each⟩).imp ?_
    rintro ⟨constant, front⟩ piece ⟨readFrom, encoded⟩
    refine ⟨encoded, ?_⟩
    rintro rfl
    rcases readFrom.of_textBytes with ⟨text, rfl, decoded⟩
    cases spelled.decode.symm.trans decoded
    exact Constant.textBytes_of_encode encoded

/-- The two surrogates of a character, which come back. -/
theorem decode_spelled_pair : ∃ text, decode [0xED, 0xA0, 0xBD, 0xED, 0xB8, 0x80] = .ok text ∧
    encode text = [0xED, 0xA0, 0xBD, 0xED, 0xB8, 0x80] := by
  have spelled : Spelled [0xD83D, 0xDE00] [0xED, 0xA0, 0xBD, 0xED, 0xB8, 0x80] :=
    spelled_iff.2 ⟨by decide, by decide⟩
  have paired : ¬ Utf16.Unpaired [0xD83D, 0xDE00] := Utf16.mend_eq_iff.1 (by decide)
  rcases decode_spelled spelled with ⟨text, decoded, -, same, -⟩
  exact ⟨text, decoded, same.2 paired⟩

/-- A surrogate on its own is read as U+FFFD, and so is another one. -/
theorem decode_lone :
    Spelled [0xD800] [0xED, 0xA0, 0x80] ∧ Spelled [0xD801] [0xED, 0xA0, 0x81] ∧
      decode [0xED, 0xA0, 0x80] = .ok "\uFFFD" ∧ decode [0xED, 0xA0, 0x81] = .ok "\uFFFD" ∧
      encode "\uFFFD" = [0xEF, 0xBF, 0xBD] := by
  have first : Spelled [0xD800] [0xED, 0xA0, 0x80] := spelled_iff.2 ⟨by decide, by decide⟩
  have second : Spelled [0xD801] [0xED, 0xA0, 0x81] := spelled_iff.2 ⟨by decide, by decide⟩
  exact ⟨first, second, by decide +kernel, by decide +kernel, by decide +kernel⟩

end ModifiedUtf8
end ClassFile
