import JsonTypedef.Json.Source

/-!
# Quoted strings

A JSON string stands between double quotes.  `encode` escapes only the quote,
the backslash and the characters below U+0020; `read` accepts every escape of
the grammar and joins surrogate pairs.
-/

namespace JsonTypedef
namespace Quoted

/-- A hexadecimal digit in lower case. -/
def hexDigit (n : Nat) : Char :=
  if n < 10 then Char.ofNat ('0'.toNat + n) else Char.ofNat ('a'.toNat + (n - 10))

/-- One character as it is written between quotes. -/
def encodeChar (c : Char) : List Char :=
  if c = '"' then ['\\', '"']
  else if c = '\\' then ['\\', '\\']
  else if c = '\x08' then ['\\', 'b']
  else if c = '\x0c' then ['\\', 'f']
  else if c = '\n' then ['\\', 'n']
  else if c = '\r' then ['\\', 'r']
  else if c = '\t' then ['\\', 't']
  else if c.toNat < 0x20 then
    ['\\', 'u', '0', '0', hexDigit (c.toNat / 16), hexDigit (c.toNat % 16)]
  else [c]

/-- A string as JSON text, quotes included. -/
def encode (s : String) : List Char :=
  '"' :: (s.toList.flatMap encodeChar ++ ['"'])

/-- Why a string cannot be read. -/
inductive Fault where
  | unterminated
  | control
  | escape
  | loneSurrogate
  | surrogatePair
  | unicode
deriving DecidableEq

/-- A fault and the byte offset that it is reported at. -/
abbrev Located :=
  Fault × Nat

/-- The value of a hexadecimal digit of either case. -/
def hexValue? (c : Char) : Option Nat :=
  if '0' ≤ c ∧ c ≤ '9' then some (c.toNat - '0'.toNat)
  else if 'a' ≤ c ∧ c ≤ 'f' then some (c.toNat - 'a'.toNat + 10)
  else if 'A' ≤ c ∧ c ≤ 'F' then some (c.toNat - 'A'.toNat + 10)
  else none

/-- Four hexadecimal digits at the front of a text and what follows them. -/
def readHex : List Char → Option (Nat × List Char)
  | a :: b :: c :: d :: rest =>
    match hexValue? a, hexValue? b, hexValue? c, hexValue? d with
    | some a, some b, some c, some d => some (((a * 16 + b) * 16 + c) * 16 + d, rest)
    | _, _, _, _ => none
  | _ => none

/-- The unit opens a surrogate pair. -/
def isHighSurrogate (n : Nat) : Bool :=
  0xd800 ≤ n && n ≤ 0xdbff

/-- The unit closes a surrogate pair. -/
def isLowSurrogate (n : Nat) : Bool :=
  0xdc00 ≤ n && n ≤ 0xdfff

/-- The character that a surrogate pair stands for. -/
def joinSurrogates (high low : Nat) : Char :=
  Char.ofNat (0x10000 + (high - 0xd800) * 0x400 + (low - 0xdc00))

/-- Read what follows `\u`, the backslash standing at `start`. -/
def readUnicode (start : Nat) (cs : List Char) : Except Located (Char × Source) :=
  match readHex cs with
  | none => .error (.unicode, start + 2)
  | some (unit, rest) =>
    if isHighSurrogate unit then
      match rest with
      | '\\' :: 'u' :: tail =>
        match readHex tail with
        | none => .error (.unicode, start + 8)
        | some (low, rest) =>
          if isLowSurrogate low then .ok (joinSurrogates unit low, ⟨start + 12, rest⟩)
          else .error (.surrogatePair, start)
      | _ => .error (.loneSurrogate, start)
    else if isLowSurrogate unit then .error (.loneSurrogate, start)
    else .ok (Char.ofNat unit, ⟨start + 6, rest⟩)

/-- The character of a two-character escape. -/
def shortEscape? (c : Char) : Option Char :=
  if c = '"' then some '"'
  else if c = '\\' then some '\\'
  else if c = '/' then some '/'
  else if c = 'b' then some '\x08'
  else if c = 'f' then some '\x0c'
  else if c = 'n' then some '\n'
  else if c = 'r' then some '\r'
  else if c = 't' then some '\t'
  else none

/-- Read what follows a backslash that stands at `start`. -/
def readEscape (start : Nat) (cs : List Char) : Except Located (Char × Source) :=
  match cs with
  | [] => .error (.unterminated, start + 1)
  | c :: rest =>
    match shortEscape? c with
    | some d => .ok (d, ⟨start + 2, rest⟩)
    | none => if c = 'u' then readUnicode start rest else .error (.escape, start)

theorem readHex_length {cs rest : List Char} {n : Nat} (h : readHex cs = some (n, rest)) :
    rest.length + 4 = cs.length := by
  unfold readHex at h
  split at h
  · split at h
    · cases h
      simp
    · cases h
  · cases h

theorem readUnicode_length {start : Nat} {cs : List Char} {c : Char} {s : Source}
    (h : readUnicode start cs = .ok (c, s)) : s.chars.length < cs.length := by
  unfold readUnicode at h
  split at h
  · cases h
  · rename_i unit rest hhex
    have hrest := readHex_length hhex
    split at h
    · split at h
      · rename_i tail
        split at h
        · cases h
        · rename_i low rest' hlow
          have htail := readHex_length hlow
          split at h
          · simp only [Except.ok.injEq, Prod.mk.injEq] at h
            obtain ⟨-, rfl⟩ := h
            simp only [List.length_cons] at hrest
            change rest'.length < cs.length
            omega
          · cases h
      · cases h
    · split at h
      · cases h
      · simp only [Except.ok.injEq, Prod.mk.injEq] at h
        obtain ⟨-, rfl⟩ := h
        change rest.length < cs.length
        omega

theorem readEscape_length {start : Nat} {cs : List Char} {c : Char} {s : Source}
    (h : readEscape start cs = .ok (c, s)) : s.chars.length < cs.length := by
  unfold readEscape at h
  split at h
  · cases h
  · split at h
    · cases h
      simp
    · split at h
      · have := readUnicode_length h
        simp only [List.length_cons]
        omega
      · cases h

/-- Read a string from behind its opening quote, `pos` being the offset there:
the characters it denotes and what follows its closing quote. -/
def read (pos : Nat) (cs : List Char) : Except Located (List Char × Source) :=
  match cs with
  | [] => .error (.unterminated, pos)
  | c :: rest =>
    if c = '"' then .ok ([], ⟨pos + 1, rest⟩)
    else if c = '\\' then
      match h : readEscape pos rest with
      | .error e => .error e
      | .ok (d, s) =>
        have := readEscape_length h
        match read s.pos s.chars with
        | .error e => .error e
        | .ok (ds, s) => .ok (d :: ds, s)
    else if c.toNat < 0x20 then .error (.control, pos)
    else
      match read (pos + c.utf8Size) rest with
      | .error e => .error e
      | .ok (ds, s) => .ok (c :: ds, s)
termination_by cs.length
decreasing_by
  · simp only [List.length_cons]
    omega
  · simp

theorem read_length {pos : Nat} {cs ds : List Char} {s : Source}
    (h : read pos cs = .ok (ds, s)) : s.chars.length < cs.length := by
  fun_induction read pos cs generalizing ds s with
  | case1 => cases h
  | case2 =>
    cases h
    simp
  | case3 => cases h
  | case4 => cases h
  | case5 _ _ _ _ _ _ _ _ hread _ ih =>
    cases h
    have := ih hread
    simp only [List.length_cons]
    omega
  | case6 => cases h
  | case7 => cases h
  | case8 _ _ _ _ _ _ _ _ hread ih =>
    cases h
    have := ih hread
    simp only [List.length_cons]
    omega

end Quoted
end JsonTypedef
