import JsonTypedef.Pointer
import Mathlib.Data.List.Forall2

/-!
# Pointers and their texts

A pointer is read back from its text, and no other text is read as that
pointer.  The texts that are read at all are described without the reader: such
a text is empty, or it starts with a slash and escapes what it has of tildes.

A text is cut at its slashes before its escapes are undone.  So both inverses
rest on two facts about one piece between slashes, that undoing and writing the
escapes are inverse to each other there, and on two about the cut itself.
-/

namespace JsonTypedef
namespace Pointer

/-- Every tilde is followed by `0` or `1`. -/
def Escaped (cs : List Char) : Prop :=
  ∀ i, cs[i]? = some '~' → cs[i + 1]? = some '0' ∨ cs[i + 1]? = some '1'

/-- The text is empty, or starts with a slash and has each tilde followed by
`0` or `1`. -/
def IsText (text : String) : Prop :=
  text = "" ∨ text.toList.head? = some '/' ∧ Escaped text.toList

/-- The characters of a segment as they are written. -/
def escape (cs : List Char) : List Char :=
  cs.flatMap escapeChar

theorem escape_cons (c : Char) (cs : List Char) :
    escape (c :: cs) = escapeChar c ++ escape cs :=
  List.flatMap_cons

/-! ## Escapes -/

theorem escapeChar_of_ne {c : Char} (htilde : c ≠ '~') (hslash : c ≠ '/') :
    escapeChar c = [c] := by
  rw [escapeChar, if_neg htilde, if_neg hslash]

theorem unescape_cons {c : Char} (h : c ≠ '~') (cs : List Char) :
    unescape (c :: cs) = (unescape cs).map (c :: ·) := by
  rw [unescape.eq_def]
  split
  · next heq => cases heq
  · next heq => exact absurd (List.cons.inj heq).1 h
  · next heq => exact absurd (List.cons.inj heq).1 h
  · next heq =>
      cases heq
      rw [if_neg h]

theorem unescape_escape (cs : List Char) : unescape (escape cs) = some cs := by
  induction cs with
  | nil => rfl
  | cons c cs ih =>
      rw [escape_cons]
      by_cases htilde : c = '~'
      · subst htilde
        change (unescape (escape cs)).map ('~' :: ·) = _
        rw [ih, Option.map_some]
      by_cases hslash : c = '/'
      · subst hslash
        change (unescape (escape cs)).map ('/' :: ·) = _
        rw [ih, Option.map_some]
      rw [escapeChar_of_ne htilde hslash, List.singleton_append,
        unescape_cons htilde, ih, Option.map_some]

theorem slash_not_mem_escape (cs : List Char) : '/' ∉ escape cs := by
  intro h
  obtain ⟨c, -, hc⟩ := List.mem_flatMap.mp h
  unfold escapeChar at hc
  split_ifs at hc with htilde hslash
  · simp at hc
  · simp at hc
  · exact hslash (List.mem_singleton.mp hc).symm

/-- Between two slashes nothing but the escaped text is undone to a text. -/
theorem eq_escape_of_unescape {cs ds : List Char} (hslash : '/' ∉ cs)
    (h : unescape cs = some ds) : cs = escape ds := by
  fun_induction unescape cs generalizing ds with
  | case1 =>
      cases h
      rfl
  | case2 rest ih =>
      obtain ⟨es, hes, rfl⟩ := Option.map_eq_some_iff.mp h
      have hrest : '/' ∉ rest := fun hmem => hslash (by simp [hmem])
      rw [escape_cons, ← ih hrest hes]
      rfl
  | case3 rest ih =>
      obtain ⟨es, hes, rfl⟩ := Option.map_eq_some_iff.mp h
      have hrest : '/' ∉ rest := fun hmem => hslash (by simp [hmem])
      rw [escape_cons, ← ih hrest hes]
      rfl
  | case4 rest => cases h
  | case5 c rest _ _ htilde ih =>
      obtain ⟨es, hes, rfl⟩ := Option.map_eq_some_iff.mp h
      rw [List.mem_cons, not_or] at hslash
      obtain ⟨hc, hrest⟩ := hslash
      rw [escape_cons, escapeChar_of_ne htilde (Ne.symm hc), ← ih hrest hes,
        List.singleton_append]

theorem escaped_cons {c : Char} {cs : List Char} :
    Escaped (c :: cs) ↔
      (c = '~' → cs.head? = some '0' ∨ cs.head? = some '1') ∧ Escaped cs := by
  rw [List.head?_eq_getElem?]
  constructor
  · intro h
    refine ⟨fun hc => h 0 (by rw [hc]; rfl), fun i hi => h (i + 1) hi⟩
  · rintro ⟨hhead, htail⟩ i hi
    cases i with
    | zero => exact hhead (Option.some.inj hi)
    | succ i => exact htail i hi

theorem escaped_escape_append (cs : List Char) {rest : List Char}
    (h : Escaped rest) : Escaped (escape cs ++ rest) := by
  induction cs with
  | nil => exact h
  | cons c cs ih =>
      rw [escape_cons, List.append_assoc]
      unfold escapeChar
      split_ifs with htilde hslash
      · simp [escaped_cons, ih]
      · simp [escaped_cons, ih]
      · simp [escaped_cons, ih, htilde]

theorem isSome_unescape_of_escaped {cs : List Char} (h : Escaped cs) :
    (unescape cs).isSome := by
  fun_induction unescape cs with
  | case1 => rfl
  | case2 rest ih | case3 rest ih =>
      rw [Option.isSome_map]
      exact ih (escaped_cons.mp (escaped_cons.mp h).2).2
  | case4 rest hzero hone =>
      rcases (escaped_cons.mp h).1 rfl with hhead | hhead
      · obtain ⟨tail, rfl⟩ := List.head?_eq_some_iff.mp hhead
        exact absurd rfl (hzero tail rfl)
      · obtain ⟨tail, rfl⟩ := List.head?_eq_some_iff.mp hhead
        exact absurd rfl (hone tail rfl)
  | case5 c rest _ _ htilde ih =>
      rw [Option.isSome_map]
      exact ih (escaped_cons.mp h).2

/-! ## The cut at the slashes -/

/-- Pieces with a slash in front of each. -/
def joined (pieces : List (List Char)) : List Char :=
  pieces.flatMap ('/' :: ·)

theorem joined_cons (piece : List Char) (pieces : List (List Char)) :
    joined (piece :: pieces) = '/' :: (piece ++ joined pieces) :=
  List.flatMap_cons

theorem splitSlashes_slash (cs : List Char) :
    splitSlashes ('/' :: cs) = [] :: splitSlashes cs :=
  rfl

/-- A character that is no slash is the first one of the first piece. -/
theorem splitSlashes_cons {c : Char} (h : c ≠ '/') (cs : List Char) :
    ∃ piece pieces, splitSlashes cs = piece :: pieces ∧
      splitSlashes (c :: cs) = (c :: piece) :: pieces := by
  have hsome : splitSlashes cs ≠ [] := by
    cases cs with
    | nil => simp [splitSlashes]
    | cons d cs =>
        unfold splitSlashes
        split_ifs
        · simp
        · split <;> simp
  obtain ⟨piece, pieces, hcut⟩ := List.exists_cons_of_ne_nil hsome
  refine ⟨piece, pieces, hcut, ?_⟩
  rw [splitSlashes, if_neg h, hcut]

/-- What stands in front of the first slash goes into the first piece. -/
theorem splitSlashes_append {front cs first : List Char}
    {others : List (List Char)} (hfront : '/' ∉ front)
    (h : splitSlashes cs = first :: others) :
    splitSlashes (front ++ cs) = (front ++ first) :: others := by
  induction front with
  | nil => exact h
  | cons c front ih =>
      rw [List.mem_cons, not_or] at hfront
      obtain ⟨_, _, hcut, hcons⟩ :=
        splitSlashes_cons (Ne.symm hfront.1) (front ++ cs)
      rw [ih hfront.2] at hcut
      cases hcut
      exact hcons

theorem splitSlashes_append_joined {piece : List Char}
    {pieces : List (List Char)} (h : ∀ cs ∈ piece :: pieces, '/' ∉ cs) :
    splitSlashes (piece ++ joined pieces) = piece :: pieces := by
  have hpiece : '/' ∉ piece := h piece List.mem_cons_self
  induction pieces generalizing piece with
  | nil =>
      have hnil : splitSlashes (joined []) = [[]] := rfl
      rw [splitSlashes_append hpiece hnil, List.append_nil]
  | cons next pieces ih =>
      have htail : splitSlashes (next ++ joined pieces) = next :: pieces :=
        ih (fun cs hcs => h cs (List.mem_cons_of_mem _ hcs))
          (h next (by simp))
      have hslash : splitSlashes (joined (next :: pieces)) =
          [] :: next :: pieces := by
        rw [joined_cons, splitSlashes_slash, htail]
      rw [splitSlashes_append hpiece hslash, List.append_nil]

theorem joined_splitSlashes (cs : List Char) :
    joined (splitSlashes cs) = '/' :: cs := by
  induction cs with
  | nil => rfl
  | cons c cs ih =>
      by_cases h : c = '/'
      · rw [h, splitSlashes_slash, joined_cons, ih, List.nil_append]
      obtain ⟨piece, pieces, hcut, hcons⟩ := splitSlashes_cons h cs
      rw [hcut, joined_cons] at ih
      rw [hcons, joined_cons, List.cons_append, (List.cons.inj ih).2]

theorem slash_not_mem_of_mem_splitSlashes {cs piece : List Char}
    (h : piece ∈ splitSlashes cs) : '/' ∉ piece := by
  induction cs generalizing piece with
  | nil =>
      rw [List.mem_singleton.mp h]
      exact List.not_mem_nil
  | cons c cs ih =>
      by_cases hc : c = '/'
      · rw [hc, splitSlashes_slash] at h
        rcases List.mem_cons.mp h with rfl | h
        · exact List.not_mem_nil
        · exact ih h
      obtain ⟨first, others, hcut, hcons⟩ := splitSlashes_cons hc cs
      rw [hcut] at ih
      rw [hcons] at h
      rcases List.mem_cons.mp h with rfl | h
      · rw [List.mem_cons, not_or]
        exact ⟨Ne.symm hc, ih List.mem_cons_self⟩
      · exact ih (List.mem_cons_of_mem _ h)

theorem head?_of_splitSlashes {c : Char} {cs first : List Char}
    {others : List (List Char)} (hc : c ≠ '/') (hhead : cs.head? = some c)
    (h : splitSlashes cs = first :: others) : first.head? = some c := by
  obtain ⟨tail, rfl⟩ := List.head?_eq_some_iff.mp hhead
  obtain ⟨_, _, -, hcons⟩ := splitSlashes_cons hc tail
  rw [h] at hcons
  rw [(List.cons.inj hcons).1, List.head?_cons]

/-- The cut tears no escape apart, as no digit is a slash. -/
theorem escaped_of_mem_splitSlashes {cs piece : List Char} (hcs : Escaped cs)
    (h : piece ∈ splitSlashes cs) : Escaped piece := by
  induction cs generalizing piece with
  | nil => rwa [List.mem_singleton.mp h]
  | cons c cs ih =>
      obtain ⟨hhead, htail⟩ := escaped_cons.mp hcs
      by_cases hc : c = '/'
      · rw [hc, splitSlashes_slash] at h
        rcases List.mem_cons.mp h with rfl | h
        · exact fun i hi => absurd hi (by simp)
        · exact ih htail h
      obtain ⟨first, others, hcut, hcons⟩ := splitSlashes_cons hc cs
      rw [hcut] at ih
      rw [hcons] at h
      rcases List.mem_cons.mp h with rfl | h
      · refine escaped_cons.mpr ⟨fun htilde => ?_, ih htail List.mem_cons_self⟩
        exact (hhead htilde).imp
          (fun hzero => head?_of_splitSlashes (by decide) hzero hcut)
          (fun hone => head?_of_splitSlashes (by decide) hone hcut)
      · exact ih htail (List.mem_cons_of_mem _ h)

/-! ## Reading a text -/

theorem mapM_unescape_eq_some_iff {pieces segments : List (List Char)} :
    pieces.mapM unescape = some segments ↔
      List.Forall₂ (fun cs ds => unescape cs = some ds) pieces segments := by
  induction pieces generalizing segments with
  | nil => simp [eq_comm]
  | cons piece pieces ih =>
      rw [List.mapM_cons, List.forall₂_cons_left_iff]
      change ((unescape piece).bind fun ds =>
        (pieces.mapM unescape).bind fun dss => some (ds :: dss)) = _ ↔ _
      simp [Option.bind_eq_some_iff, ih, eq_comm (a := segments)]

theorem isSome_mapM_unescape {pieces : List (List Char)}
    (h : ∀ cs ∈ pieces, (unescape cs).isSome) :
    (pieces.mapM unescape).isSome := by
  induction pieces with
  | nil => rfl
  | cons piece pieces ih =>
      obtain ⟨ds, hds⟩ := Option.isSome_iff_exists.mp
        (h piece List.mem_cons_self)
      obtain ⟨dss, hdss⟩ := Option.isSome_iff_exists.mp
        (ih fun cs hcs => h cs (List.mem_cons_of_mem _ hcs))
      rw [List.mapM_cons, hds, hdss]
      rfl

/-- Pieces without slashes that are undone are the segments as written. -/
theorem eq_map_escape {pieces segments : List (List Char)}
    (hslash : ∀ cs ∈ pieces, '/' ∉ cs)
    (h : pieces.mapM unescape = some segments) :
    pieces = segments.map escape := by
  have hread := mapM_unescape_eq_some_iff.mp h
  clear h
  induction hread with
  | nil => rfl
  | cons hpiece _ ih =>
      rw [List.map_cons,
        ← eq_escape_of_unescape (hslash _ List.mem_cons_self) hpiece,
        ← ih fun cs hcs => hslash cs (List.mem_cons_of_mem _ hcs)]

theorem ofText?_of_slash {text : String} {cs : List Char}
    (h : text.toList = '/' :: cs) :
    ofText? text = ((splitSlashes cs).mapM unescape).map fun pieces =>
      ⟨pieces.map String.ofList⟩ := by
  unfold ofText?
  rw [h]
  rfl

/-- A text that is read is empty or starts with a slash. -/
theorem slash_of_isSome_ofText? {text : String} (h : (ofText? text).isSome) :
    text = "" ∨ ∃ cs, text.toList = '/' :: cs := by
  unfold ofText? at h
  split at h
  next hnil => exact Or.inl (String.toList_eq_nil_iff.mp hnil)
  next c cs hcons =>
    split_ifs at h with hc
    · exact Or.inr ⟨cs, by rw [hcons, hc]⟩
    · cases h

theorem toList_text (p : Pointer) :
    p.text.toList = joined (p.segments.map fun s => escape s.toList) := by
  rw [text, String.toList_ofList, joined, List.flatMap_map]
  rfl

theorem ofText?_text (p : Pointer) : ofText? p.text = some p := by
  obtain ⟨segments⟩ := p
  cases segments with
  | nil => rfl
  | cons segment segments =>
      have htext := toList_text ⟨segment :: segments⟩
      rw [List.map_cons, joined_cons] at htext
      have hcut : splitSlashes (escape segment.toList ++
          joined (segments.map fun s => escape s.toList)) =
            (segment :: segments).map fun s => escape s.toList := by
        refine splitSlashes_append_joined fun cs hcs => ?_
        rw [← List.map_cons (f := fun s : String => escape s.toList)] at hcs
        obtain ⟨s, -, rfl⟩ := List.mem_map.mp hcs
        exact slash_not_mem_escape s.toList
      have hread : ((segment :: segments).map fun s => escape s.toList).mapM
          unescape = some ((segment :: segments).map String.toList) := by
        rw [mapM_unescape_eq_some_iff, List.forall₂_map_left_iff,
          List.forall₂_map_right_iff, List.forall₂_same]
        exact fun s _ => unescape_escape s.toList
      rw [ofText?_of_slash htext, hcut, hread]
      simp

theorem text_of_ofText? {text : String} {p : Pointer}
    (h : ofText? text = some p) : p.text = text := by
  rcases slash_of_isSome_ofText? (Option.isSome_of_eq_some h) with
    rfl | ⟨cs, hcs⟩
  · cases h
    rfl
  rw [ofText?_of_slash hcs] at h
  obtain ⟨segments, hsegments, rfl⟩ := Option.map_eq_some_iff.mp h
  have hpieces : splitSlashes cs = segments.map escape :=
    eq_map_escape (fun _ => slash_not_mem_of_mem_splitSlashes) hsegments
  apply String.toList_inj.mp
  rw [toList_text, hcs, ← joined_splitSlashes, hpieces, List.map_map]
  congr 2
  funext ds
  exact congrArg escape String.toList_ofList

theorem escaped_toList_text (p : Pointer) : Escaped p.text.toList := by
  rw [toList_text]
  induction p.segments with
  | nil => exact fun i hi => absurd hi (by simp [joined])
  | cons segment segments ih =>
      rw [List.map_cons, joined_cons, escaped_cons]
      exact ⟨fun h => absurd h (by decide), escaped_escape_append _ ih⟩

theorem isText_text (p : Pointer) : IsText p.text := by
  refine Or.imp_right (fun hslash => ⟨?_, escaped_toList_text p⟩)
    (slash_of_isSome_ofText? (Option.isSome_of_eq_some (ofText?_text p)))
  obtain ⟨cs, hcs⟩ := hslash
  rw [hcs, List.head?_cons]

theorem isSome_ofText?_of_isText {text : String} (h : IsText text) :
    (ofText? text).isSome := by
  obtain rfl | ⟨hslash, hescaped⟩ := h
  · rfl
  obtain ⟨cs, hcs⟩ := List.head?_eq_some_iff.mp hslash
  rw [hcs] at hescaped
  have hpieces : ((splitSlashes cs).mapM unescape).isSome :=
    isSome_mapM_unescape fun piece hpiece =>
      isSome_unescape_of_escaped
        (escaped_of_mem_splitSlashes (escaped_cons.mp hescaped).2 hpiece)
  rw [ofText?_of_slash hcs, Option.isSome_map]
  exact hpieces

/-- A text is read as the pointer whose text it is and as no other, and the
texts of pointers are those that are empty, or start with a slash and have
each tilde followed by `0` or `1`. -/
theorem ofText_inverts_text :
    (∀ p : Pointer, ofText? p.text = some p) ∧
      (∀ text p, ofText? text = some p ↔ p.text = text) ∧
      ∀ text, (ofText? text).isSome ↔ IsText text := by
  refine ⟨ofText?_text, fun text p => ⟨text_of_ofText?, ?_⟩, fun text => ⟨?_, ?_⟩⟩
  · rintro rfl
    exact ofText?_text p
  · intro h
    obtain ⟨p, hp⟩ := Option.isSome_iff_exists.mp h
    rw [← text_of_ofText? hp]
    exact isText_text p
  · exact isSome_ofText?_of_isText

/-- Empty segments, slashes and tildes that look like escapes are kept. -/
example : ofText? "//~01/a~1" = some ⟨["", "~1", "a/"]⟩ := by decide

end Pointer
end JsonTypedef
