import BoardPython.Bytes

/-! Byte-wise escaping: printable ASCII other than the quote and the backslash stands for itself,
every other byte is a backslash and two uppercase hexadecimal digits. -/
namespace BoardPython.Text

def isPlainByte (b : UInt8) : Bool :=
  0x20 ≤ b.toNat && b.toNat ≤ 0x7E && b.toNat ≠ 0x22 && b.toNat ≠ 0x5C

def escapedByte (b : UInt8) : List Char :=
  if isPlainByte b then [Char.ofNat b.toNat]
  else ['\\', Bytes.upperHexDigit (b.toNat / 16), Bytes.upperHexDigit (b.toNat % 16)]

def escape (bs : Bytes) : String := String.ofList (bs.flatMap escapedByte)

end BoardPython.Text
