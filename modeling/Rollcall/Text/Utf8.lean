/-!
Texts as UTF-8 bytes, and bytes read back as text where they are valid.
-/

namespace Rollcall

abbrev Bytes := List UInt8

namespace Text

def utf8 (s : String) : Bytes := s.toUTF8.toList

def ofUtf8? (bytes : Bytes) : Option String := String.fromUTF8? bytes.toByteArray

end Text

end Rollcall
