import BoardPython.Bytes

/-! UTF-8 decoding, one character at a time. Overlong forms, surrogates and code points beyond
U+10FFFF are not characters. -/
namespace BoardPython.Text.Utf8

def replacement : Char := '�'

/-- A continuation byte carries six bits. -/
def isContinuation (b : UInt8) : Bool := 0x80 ≤ b.toNat && b.toNat ≤ 0xBF

def decode? : Bytes → Option (Char × Bytes)
  | [] => none
  | a :: rest =>
    if a.toNat < 0x80 then some (Char.ofNat a.toNat, rest)
    else if 0xC2 ≤ a.toNat && a.toNat ≤ 0xDF then
      match rest with
      | b :: rest =>
        if isContinuation b then
          some (Char.ofNat ((a.toNat - 0xC0) * 64 + (b.toNat - 0x80)), rest)
        else none
      | _ => none
    else if 0xE0 ≤ a.toNat && a.toNat ≤ 0xEF then
      match rest with
      | b :: c :: rest =>
        let low := if a.toNat = 0xE0 then 0xA0 else 0x80
        let high := if a.toNat = 0xED then 0x9F else 0xBF
        if low ≤ b.toNat && b.toNat ≤ high && isContinuation c then
          some (Char.ofNat
            (((a.toNat - 0xE0) * 64 + (b.toNat - 0x80)) * 64 + (c.toNat - 0x80)), rest)
        else none
      | _ => none
    else if 0xF0 ≤ a.toNat && a.toNat ≤ 0xF4 then
      match rest with
      | b :: c :: d :: rest =>
        let low := if a.toNat = 0xF0 then 0x90 else 0x80
        let high := if a.toNat = 0xF4 then 0x8F else 0xBF
        if low ≤ b.toNat && b.toNat ≤ high && isContinuation c && isContinuation d then
          some (Char.ofNat
            ((((a.toNat - 0xF0) * 64 + (b.toNat - 0x80)) * 64 + (c.toNat - 0x80)) * 64
              + (d.toNat - 0x80)), rest)
        else none
      | _ => none
    else none

/-- Decoding a character uses up at least one byte. -/
theorem decode?_length {bs : Bytes} {c : Char} {rest : Bytes} (h : decode? bs = some (c, rest)) :
    rest.length < bs.length := by
  cases bs with
  | nil => simp [decode?] at h
  | cons a tail =>
    simp only [decode?] at h
    split at h
    · simp only [Option.some.injEq, Prod.mk.injEq] at h
      simp [← h.2]
    · repeat' split at h
      all_goals first
        | contradiction
        | (simp only [Option.some.injEq, Prod.mk.injEq] at h
           simp only [← h.2, List.length_cons]
           omega)

/-- The character at the start of `bs`, the replacement character where none starts. -/
def first (bs : Bytes) : Char :=
  match decode? bs with
  | some (c, _) => c
  | none => replacement

/-- A byte sequence as pieces: characters, and single bytes that belong to no character. -/
def pieces (bs : Bytes) : List (Char ⊕ UInt8) :=
  match _h : decode? bs with
  | some (c, rest) => .inl c :: pieces rest
  | none =>
    match bs with
    | [] => []
    | b :: rest => .inr b :: pieces rest
termination_by bs.length
decreasing_by
  · exact decode?_length _h
  · simp

def toString (bs : Bytes) : String :=
  String.ofList ((pieces bs).map fun
    | .inl c => c
    | .inr _ => replacement)

end BoardPython.Text.Utf8
