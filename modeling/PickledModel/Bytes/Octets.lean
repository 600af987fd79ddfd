import PickledModel.Bytes.Word

/-!
# Octets as text

Two lower-case hexadecimal digits for a byte, and a byte run cut to a given length.
-/

set_option autoImplicit false

namespace PickledModel.Octets

def hex (b : UInt8) : String :=
  String.ofList [Nat.digitChar (b.toNat / 16), Nat.digitChar (b.toNat % 16)]

def preview (bs : Bytes) (max : Nat) : String :=
  " ".intercalate ((bs.take max).map hex) ++
    (if max < bs.length then s!"... ({bs.length - max} more)" else "")

end PickledModel.Octets
