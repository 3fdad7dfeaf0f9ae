/-!
# Hexadecimal text

Numbers as messages write them: small hexadecimal digits, filled up with
zeros to a least width.
-/

namespace LC3

/-- The hexadecimal digits of `n`, with zeros in front up to `width` digits. -/
def hex (width n : Nat) : String :=
  String.ofList ((Nat.toDigits 16 n).leftpad width '0')

end LC3
