/-! # Bytes as text — reading UTF-8

    A row of bytes is a text if it is valid UTF-8, and nothing else: no byte is
    replaced or left out.  So the bytes that can be read are exactly those that
    some text writes (`decode?_eq_some_iff`). -/

namespace BraceLang

namespace Text

/-- The bytes that write a text. -/
def encode (s : String) : List UInt8 :=
  s.toUTF8.data.toList

/-- The text that the bytes write, if they write one. -/
def decode? (bytes : List UInt8) : Option String :=
  String.fromUTF8? ⟨bytes.toArray⟩

/-- Bytes are read as a text exactly if the text writes them. -/
theorem decode?_eq_some_iff {bytes : List UInt8} {s : String} :
    decode? bytes = some s ↔ bytes = encode s := by
  constructor
  · intro h
    unfold decode? String.fromUTF8? at h
    split at h
    next =>
        cases h
        rfl
    next => cases h
  · intro h
    rw [h]
    show String.fromUTF8? s.toByteArray = some s
    unfold String.fromUTF8?
    rw [dif_pos s.isValidUTF8]
    rfl

end Text

end BraceLang
