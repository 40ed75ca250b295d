import Horizon.Text.Basic

/-!
Text as UTF-8 bytes, exact in both directions.
-/

namespace Horizon
namespace Utf8

def encode (s : Text) : Bytes := (String.ofList s).toUTF8.data.toList

/-- The text of well-formed bytes. -/
def decode? (bytes : Bytes) : Option Text :=
  (String.fromUTF8? ⟨bytes.toArray⟩).map String.toList

theorem fromUTF8?_toUTF8 (s : String) : String.fromUTF8? s.toUTF8 = some s := by
  have valid : s.toUTF8.IsValidUTF8 := s.isValidUTF8
  have same : String.fromUTF8 s.toUTF8 valid = s := rfl
  rw [String.fromUTF8?, dif_pos valid, same]

theorem decode?_encode (s : Text) : decode? (encode s) = some s := by
  simp only [decode?, encode, Array.toArray_toList]
  rw [fromUTF8?_toUTF8]
  simp

theorem encode_of_decode? {bytes : Bytes} {s : Text} (h : decode? bytes = some s) :
    encode s = bytes := by
  by_cases valid : (⟨bytes.toArray⟩ : ByteArray).IsValidUTF8
  · simp only [decode?, String.fromUTF8?, valid, dite_true, Option.map_some,
      Option.some.injEq] at h
    subst h
    simp [encode, String.toUTF8, String.fromUTF8]
  · simp [decode?, String.fromUTF8?, valid] at h

end Utf8
end Horizon
