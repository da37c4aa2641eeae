import JsonTypedef.Json.Quoted

/-!
# The grammar of quoted strings

`Quoted.Written` says which characters a text denotes from behind an opening
quote up to the closing one.  Reading succeeds on exactly these texts, and what
is encoded is written.
-/

namespace JsonTypedef
namespace Quoted

/-- Four hexadecimal digits and the number that they spell. -/
inductive Hex : Nat → List Char → List Char → Prop
  | mk {a b c d : Char} {w x y z : Nat} {rest : List Char} :
      hexValue? a = some w → hexValue? b = some x → hexValue? c = some y →
        hexValue? d = some z →
          Hex (((w * 16 + x) * 16 + y) * 16 + z) (a :: b :: c :: d :: rest) rest

/-- A character of a string as it may be written between quotes. -/
inductive Item : Char → List Char → List Char → Prop
  | plain {c : Char} {rest : List Char} :
      c ≠ '"' → c ≠ '\\' → ¬ c.toNat < 0x20 → Item c (c :: rest) rest
  | short {e c : Char} {rest : List Char} :
      shortEscape? e = some c → Item c ('\\' :: e :: rest) rest
  | unit {n : Nat} {cs rest : List Char} :
      Hex n cs rest → isHighSurrogate n = false → isLowSurrogate n = false →
        Item (Char.ofNat n) ('\\' :: 'u' :: cs) rest
  | pair {high low : Nat} {cs behind rest : List Char} :
      Hex high cs ('\\' :: 'u' :: behind) → isHighSurrogate high = true →
        Hex low behind rest → isLowSurrogate low = true →
          Item (joinSurrogates high low) ('\\' :: 'u' :: cs) rest

/-- The characters of a string from behind its opening quote. -/
inductive Written : List Char → List Char → List Char → Prop
  | close {rest : List Char} : Written [] ('"' :: rest) rest
  | item {d : Char} {ds cs behind rest : List Char} :
      Item d cs behind → Written ds behind rest → Written (d :: ds) cs rest

/-! ## Reading -/

theorem readHex_eq_some_iff {n : Nat} {cs rest : List Char} :
    readHex cs = some (n, rest) ↔ Hex n cs rest := by
  constructor
  · intro h
    unfold readHex at h
    split at h
    next =>
      split at h
      next ha hb hc hd =>
        cases h
        exact .mk ha hb hc hd
      next => cases h
    next => cases h
  · rintro ⟨ha, hb, hc, hd⟩
    simp [readHex, ha, hb, hc, hd]

theorem readUnicode_spec {start : Nat} {cs : List Char} {c : Char} {s : Source}
    (h : readUnicode start cs = .ok (c, s)) :
    Item c ('\\' :: 'u' :: cs) s.chars := by
  unfold readUnicode at h
  split at h
  next => cases h
  next unit rest hhex =>
    have hunit := readHex_eq_some_iff.mp hhex
    split at h
    next hhigh =>
      split at h
      next tail =>
        split at h
        next => cases h
        next low rest' hlow =>
          split at h
          next hislow =>
            simp only [Except.ok.injEq, Prod.mk.injEq] at h
            obtain ⟨rfl, rfl⟩ := h
            exact .pair hunit hhigh (readHex_eq_some_iff.mp hlow) hislow
          next => cases h
      next => cases h
    next hhigh =>
      split at h
      next => cases h
      next hislow =>
        simp only [Except.ok.injEq, Prod.mk.injEq] at h
        obtain ⟨rfl, rfl⟩ := h
        exact .unit hunit (by simpa using hhigh) (by simpa using hislow)

theorem readEscape_spec {start : Nat} {cs : List Char} {c : Char} {s : Source}
    (h : readEscape start cs = .ok (c, s)) : Item c ('\\' :: cs) s.chars := by
  unfold readEscape at h
  split at h
  next => cases h
  next e rest =>
    split at h
    next d hshort =>
      cases h
      exact .short hshort
    next =>
      split at h
      next hu =>
        subst hu
        exact readUnicode_spec h
      next => cases h

/-- What is read is written. -/
theorem written_of_read {pos : Nat} {cs ds : List Char} {s : Source}
    (h : read pos cs = .ok (ds, s)) : Written ds cs s.chars := by
  fun_induction read pos cs generalizing ds s with
  | case1 => cases h
  | case2 pos rest =>
      cases h
      exact .close
  | case3 => cases h
  | case4 => cases h
  | case5 pos rest d s' hescape _ ds' s'' hread _ ih =>
      cases h
      exact .item (readEscape_spec hescape) (ih hread)
  | case6 => cases h
  | case7 => cases h
  | case8 pos c rest hquote hescape hcontrol ds' s' hread ih =>
      cases h
      exact .item (.plain hquote hescape hcontrol) (ih hread)

theorem readEscape_of_item {c : Char} {cs rest : List Char}
    (h : Item c ('\\' :: cs) rest) (start : Nat) :
    ∃ s, s.chars = rest ∧ readEscape start cs = .ok (c, s) := by
  cases h with
  | plain _ hne => exact absurd rfl hne
  | short hshort => exact ⟨⟨start + 2, rest⟩, rfl, by simp [readEscape, hshort]⟩
  | unit hhex hhigh hlow =>
      have hread := readHex_eq_some_iff.mpr hhex
      exact ⟨⟨start + 6, rest⟩, rfl, by
        simp [readEscape, shortEscape?, readUnicode, hread, hhigh, hlow]⟩
  | pair hhex hhigh hhex' hlow =>
      have hread := readHex_eq_some_iff.mpr hhex
      have hread' := readHex_eq_some_iff.mpr hhex'
      exact ⟨⟨start + 12, rest⟩, rfl, by
        simp [readEscape, shortEscape?, readUnicode, hread, hhigh, hread',
          hlow]⟩

/-- What is written is read. -/
theorem read_of_written {ds cs rest : List Char} (h : Written ds cs rest)
    (pos : Nat) : ∃ s, s.chars = rest ∧ read pos cs = .ok (ds, s) := by
  induction h generalizing pos with
  | @close rest => exact ⟨⟨pos + 1, rest⟩, rfl, by simp [read]⟩
  | @item d ds cs behind rest hitem _ ih =>
      by_cases hescape : ∃ tail, cs = '\\' :: tail
      · obtain ⟨tail, rfl⟩ := hescape
        obtain ⟨s, rfl, hread⟩ := readEscape_of_item hitem pos
        obtain ⟨s', hs', htail⟩ := ih s.pos
        refine ⟨s', hs', ?_⟩
        rw [read, if_neg (by decide), if_pos rfl]
        split
        next e heq =>
          rw [hread] at heq
          cases heq
        next d' s' heq =>
          rw [hread] at heq
          cases heq
          rw [htail]
      · cases hitem with
        | plain hquote hne hcontrol =>
            obtain ⟨s', hs', htail⟩ := ih (pos + d.utf8Size)
            refine ⟨s', hs', ?_⟩
            rw [read, if_neg hquote, if_neg hne, if_neg hcontrol, htail]
        | short => exact absurd ⟨_, rfl⟩ hescape
        | unit => exact absurd ⟨_, rfl⟩ hescape
        | pair => exact absurd ⟨_, rfl⟩ hescape

/-! ## What follows a string

Whether characters make up a string does not depend on what stands behind them.
-/

theorem Hex.frame {n : Nat} {cs rest : List Char} (h : Hex n cs rest) :
    ∃ l, cs = l ++ rest ∧ ∀ rest', Hex n (l ++ rest') rest' := by
  cases h with
  | @mk a b c d _ _ _ _ _ ha hb hc hd =>
      exact ⟨[a, b, c, d], rfl, fun _ => .mk ha hb hc hd⟩

theorem Item.frame {c : Char} {cs rest : List Char} (h : Item c cs rest) :
    ∃ l, cs = l ++ rest ∧ ∀ rest', Item c (l ++ rest') rest' := by
  cases h with
  | plain hquote hescape hcontrol =>
      exact ⟨[c], rfl, fun _ => .plain hquote hescape hcontrol⟩
  | @short e _ _ hshort => exact ⟨['\\', e], rfl, fun _ => .short hshort⟩
  | unit hhex hhigh hlow =>
      obtain ⟨l, rfl, hframe⟩ := hhex.frame
      exact ⟨'\\' :: 'u' :: l, rfl,
        fun rest' => .unit (hframe rest') hhigh hlow⟩
  | pair hhex hhigh hhex' hlow =>
      obtain ⟨l', rfl, hframe'⟩ := hhex'.frame
      obtain ⟨l, rfl, hframe⟩ := hhex.frame
      refine ⟨'\\' :: 'u' :: (l ++ '\\' :: 'u' :: l'), by simp, fun rest' => ?_⟩
      simpa using Item.pair (hframe _) hhigh (hframe' rest') hlow

theorem Written.frame {ds cs rest : List Char} (h : Written ds cs rest) :
    ∃ l, cs = l ++ rest ∧ ∀ rest', Written ds (l ++ rest') rest' := by
  induction h with
  | close => exact ⟨['"'], rfl, fun _ => .close⟩
  | item hitem _ ih =>
      obtain ⟨l', rfl, hframe'⟩ := ih
      obtain ⟨l, rfl, hframe⟩ := hitem.frame
      refine ⟨l ++ l', by simp, fun rest' => ?_⟩
      rw [List.append_assoc]
      exact .item (hframe _) (hframe' rest')

/-! ## Encoding -/

theorem hexValue?_hexDigit {n : Nat} (h : n < 16) :
    hexValue? (hexDigit n) = some n := by
  have hall : ∀ n < 16, hexValue? (hexDigit n) = some n := by decide
  exact hall n h

theorem item_control {c : Char} (h : c.toNat < 0x20) (rest : List Char) :
    Item c ('\\' :: 'u' :: '0' :: '0' :: hexDigit (c.toNat / 16) ::
      hexDigit (c.toNat % 16) :: rest) rest := by
  have hzero : hexValue? '0' = some 0 := by decide
  have hhigh : c.toNat / 16 < 16 := by omega
  have hlow : c.toNat % 16 < 16 := Nat.mod_lt _ (by decide)
  have hhex : Hex (((0 * 16 + 0) * 16 + c.toNat / 16) * 16 + c.toNat % 16)
      ('0' :: '0' :: hexDigit (c.toNat / 16) :: hexDigit (c.toNat % 16) :: rest)
        rest :=
    .mk hzero hzero (hexValue?_hexDigit hhigh) (hexValue?_hexDigit hlow)
  have hcode : ((0 * 16 + 0) * 16 + c.toNat / 16) * 16 + c.toNat % 16 =
      c.toNat := by omega
  rw [hcode] at hhex
  have hitem := Item.unit hhex
    (by simp only [isHighSurrogate, Bool.and_eq_false_iff,
      decide_eq_false_iff_not]; omega)
    (by simp only [isLowSurrogate, Bool.and_eq_false_iff,
      decide_eq_false_iff_not]; omega)
  rwa [Char.ofNat_toNat] at hitem

theorem item_encodeChar (c : Char) (rest : List Char) :
    Item c (encodeChar c ++ rest) rest := by
  unfold encodeChar
  split
  next h => subst h; exact .short (by decide)
  split
  next h => subst h; exact .short (by decide)
  split
  next h => subst h; exact .short (by decide)
  split
  next h => subst h; exact .short (by decide)
  split
  next h => subst h; exact .short (by decide)
  split
  next h => subst h; exact .short (by decide)
  split
  next h => subst h; exact .short (by decide)
  split
  next h => exact item_control h rest
  next hquote hescape _ _ _ _ _ hcontrol => exact .plain hquote hescape hcontrol

/-- An encoded string is written. -/
theorem written_encode (ds rest : List Char) :
    Written ds (ds.flatMap encodeChar ++ '"' :: rest) rest := by
  induction ds with
  | nil => exact .close
  | cons d ds ih =>
      rw [List.flatMap_cons, List.append_assoc]
      exact .item (item_encodeChar d _) ih

end Quoted
end JsonTypedef
