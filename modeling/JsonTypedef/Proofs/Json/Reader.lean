import JsonTypedef.Proofs.Json.Distinct
import JsonTypedef.Proofs.Json.Scan

/-!
# The generic reader follows the grammar

`Value.ofText?` reads exactly the texts of JSON, and where no object repeats a
name it reads a text as the value that the text denotes.
-/

namespace JsonTypedef
namespace Grammar

/-- The token may open a value. -/
def opensValue : Token → Prop
  | .null | .bool _ | .num _ _ | .str _ | .openBracket | .openBrace => True
  | _ => False

theorem Spells.front {τ : Type} {front : Front τ} {v : Value} {s u : τ}
    (h : Spells front v s u) : ∃ t s', front t s s' ∧ opensValue t := by
  cases h with
  | null h => exact ⟨_, _, h, trivial⟩
  | bool h => exact ⟨_, _, h, trivial⟩
  | num h => exact ⟨_, _, h, trivial⟩
  | str h => exact ⟨_, _, h, trivial⟩
  | arr h _ => exact ⟨_, _, h, trivial⟩
  | obj h _ => exact ⟨_, _, h, trivial⟩

theorem streamFront.unique {t t' : Token} {s u u' : Stream}
    (h : streamFront t s u) (h' : streamFront t' s u') : t = t' ∧ u = u' := by
  cases h
  cases h'
  exact ⟨rfl, rfl⟩

theorem streamFront.size {t : Token} {s u : Stream} (h : streamFront t s u) :
    u.size < s.size := by
  cases h
  exact Nat.lt_succ_self _

/-- No value starts with a closing bracket. -/
theorem Spells.not_closeBracket {v : Value} {s s' u : Stream}
    (h : Spells streamFront v s s') : ¬ streamFront .closeBracket s u := by
  obtain ⟨t, s', hfront, hopens⟩ := h.front
  intro hclose
  obtain ⟨rfl, -⟩ := hfront.unique hclose
  exact hopens

/-- No member starts with a closing brace. -/
theorem Member.not_closeBrace {α : Type} {value : α → Stream → Stream → Prop}
    {m : String × α} {s s' u : Stream} (h : Member streamFront value m s s') :
    ¬ streamFront .closeBrace s u := by
  cases h with
  | mk hkey _ _ =>
      intro hclose
      cases (hkey.unique hclose).1

end Grammar

namespace Value

open Grammar Scanner

section

variable {c : Cursor} {s : Stream}

/-! ## What is read is spelled -/

theorem member_of_scanMember {value : Scanner Unit Value}
    (hvalue : ∀ c v s, Yields (value c) v s → Spells streamFront v c.stream s)
    {m : String × Value} (h : Yields (scanMember value c) m s) :
    Member streamFront (Spells streamFront) m c.stream s := by
  unfold scanMember at h
  split at h
  next key afterKey hkey htake =>
    split at h
    next colon hcolon =>
      obtain ⟨v, hv, rfl⟩ :=
        h.of_map (f := fun v => (key, v)) (fun _ => rfl) fun _ => rfl
      exact .mk (Cursor.front_of_take? htake) (Cursor.front_of_accept? hcolon)
        (hvalue _ _ _ hv)
    next =>
      obtain ⟨_, h, -⟩ := h
      cases h
  next =>
    obtain ⟨_, h, -⟩ := h
    cases h

theorem spells_of_scanWith {inner : Option (Scanner Unit Value)}
    (hinner : ∀ value ∈ inner, ∀ c v s, Yields (value c) v s →
      Spells streamFront v c.stream s)
    {v : Value} (h : Yields (scanWith inner c) v s) :
    Spells streamFront v c.stream s := by
  unfold scanWith at h
  split at h
  next htake =>
    obtain ⟨_, hok, rfl, rfl⟩ := h
    cases hok
    exact .null (Cursor.front_of_take? htake)
  next htake =>
    obtain ⟨_, hok, rfl, rfl⟩ := h
    cases hok
    exact .bool (Cursor.front_of_take? htake)
  next htake =>
    obtain ⟨_, hok, rfl, rfl⟩ := h
    cases hok
    exact .str (Cursor.front_of_take? htake)
  next htake =>
    obtain ⟨_, hok, rfl, rfl⟩ := h
    cases hok
    exact .num (Cursor.front_of_take? htake)
  next htake =>
    split at h
    next =>
      obtain ⟨_, h, -⟩ := h
      cases h
    next value =>
      obtain ⟨items, hitems, rfl⟩ :=
        h.of_map (f := .arr) (fun _ => rfl) fun _ => rfl
      exact .arr (Cursor.front_of_take? htake)
        (contents_of_enclosed (fun _ => hinner value rfl) hitems)
  next htake =>
    split at h
    next =>
      obtain ⟨_, h, -⟩ := h
      cases h
    next value =>
      obtain ⟨members, hmembers, rfl⟩ :=
        h.of_map (f := .obj) (fun _ => rfl) fun _ => rfl
      exact .obj (Cursor.front_of_take? htake)
        (contents_of_enclosed
          (fun _ _ _ _ hm => member_of_scanMember (hinner value rfl) hm)
            hmembers)
  next =>
    obtain ⟨_, h, -⟩ := h
    cases h

theorem spells_of_scan {levels : Nat} {v : Value}
    (h : Yields (scan levels c) v s) : Spells streamFront v c.stream s := by
  induction levels generalizing c v s with
  | zero => exact spells_of_scanWith (by simp) h
  | succ levels ih =>
      refine spells_of_scanWith ?_ h
      rintro value ⟨⟩ c v s hv
      exact ih hv

/-! ## What is spelled is read -/

theorem yields_scanMember {value : Scanner Unit Value} {m : String × Value}
    (hvalue : ∀ d : Cursor, d.size < c.size →
      Spells streamFront m.2 d.stream s →
      Yields (value d) m.2 s)
    (h : Member streamFront (Spells streamFront) m c.stream s) :
    Yields (scanMember value c) m s := by
  cases h with
  | @mk key v _ t u _ hkey hcolon hspells =>
      obtain ⟨⟨_, afterKey, hshorter⟩, htake, rfl, rfl⟩ :=
        Cursor.take?_of_front hkey
      obtain ⟨colon, haccept, rfl⟩ := Cursor.accept?_of_front hcolon
      simp only [scanMember, htake, haccept]
      have hv := hvalue colon.rest (Nat.lt_trans colon.shorter hshorter) hspells
      exact (hv.reaches.map (key, ·) _ (fun _ => rfl) fun _ => rfl).yields

theorem scan_eq_scanWith (levels : Nat) :
    ∃ inner, scan levels = scanWith inner := by
  cases levels with
  | zero => exact ⟨none, rfl⟩
  | succ levels => exact ⟨some (scan levels), rfl⟩

/-- Where a token is left there is a level for the containers that it opens. -/
theorem exists_level {levels : Nat} {t : Token} {u : Stream}
    (h : streamFront t c.stream u) (hsize : c.size ≤ levels) :
    ∃ n, levels = n + 1 ∧ u.size ≤ n := by
  have hless : u.size < c.size := h.size
  exact ⟨levels - 1, by omega, by omega⟩

/-- A value is read where as many levels are given as tokens are left. -/
theorem yields_scan {levels : Nat} {v : Value}
    (h : Spells streamFront v c.stream s) (hsize : c.size ≤ levels) :
    Yields (scan levels c) v s := by
  induction v generalizing levels c s with
  | null =>
      cases h with
      | null hfront =>
          obtain ⟨⟨_, rest, hshorter⟩, htake, rfl, rfl⟩ :=
            Cursor.take?_of_front hfront
          obtain ⟨inner, hinner⟩ := scan_eq_scanWith levels
          simp only [hinner, scanWith, htake]
          exact ⟨_, rfl, rfl, rfl⟩
  | bool b =>
      cases h with
      | bool hfront =>
          obtain ⟨⟨_, rest, hshorter⟩, htake, rfl, rfl⟩ :=
            Cursor.take?_of_front hfront
          obtain ⟨inner, hinner⟩ := scan_eq_scanWith levels
          simp only [hinner, scanWith, htake]
          exact ⟨_, rfl, rfl, rfl⟩
  | num n =>
      cases h with
      | num hfront =>
          obtain ⟨⟨_, rest, hshorter⟩, htake, rfl, rfl⟩ :=
            Cursor.take?_of_front hfront
          obtain ⟨inner, hinner⟩ := scan_eq_scanWith levels
          simp only [hinner, scanWith, htake]
          exact ⟨_, rfl, rfl, rfl⟩
  | str x =>
      cases h with
      | str hfront =>
          obtain ⟨⟨_, rest, hshorter⟩, htake, rfl, rfl⟩ :=
            Cursor.take?_of_front hfront
          obtain ⟨inner, hinner⟩ := scan_eq_scanWith levels
          simp only [hinner, scanWith, htake]
          exact ⟨_, rfl, rfl, rfl⟩
  | arr items ih =>
      cases h with
      | arr hopen hitems =>
          obtain ⟨n, rfl, hn⟩ := exists_level hopen hsize
          obtain ⟨⟨_, rest, hshorter⟩, htake, rfl, rfl⟩ :=
            Cursor.take?_of_front hopen
          have hscan : Reaches (fun _ => False)
              (enclosed .closeBracket (fun _ => ()) (fun _ => scan n) rest)
              items s := by
            refine reaches_enclosed (by simp)
              (fun _ _ _ _ hv => hv.not_closeBracket) ?_ hn hitems
            rintro xs v ys rfl d u hd hv
            exact (ih v (by simp) hv hd).reaches
          simp only [scan, scanWith, htake]
          exact (hscan.map Value.arr _ (fun _ => rfl) fun _ => rfl).yields
  | obj members ih =>
      cases h with
      | obj hopen hmembers =>
          obtain ⟨n, rfl, hn⟩ := exists_level hopen hsize
          obtain ⟨⟨_, rest, hshorter⟩, htake, rfl, rfl⟩ :=
            Cursor.take?_of_front hopen
          have hscan : Reaches (fun _ => False)
              (enclosed .closeBrace (fun _ => ()) (fun _ => scanMember (scan n))
                rest)
              members s := by
            refine reaches_enclosed (by simp)
              (fun _ _ _ _ hm => hm.not_closeBrace) ?_ hn hmembers
            rintro xs m ys rfl d u hd hm
            refine (yields_scanMember (fun e he hv => ?_) hm).reaches
            exact ih m (by simp) hv (by omega)
          simp only [scan, scanWith, htake]
          exact (hscan.map Value.obj _ (fun _ => rfl) fun _ => rfl).yields

/-! ## Whole texts -/

theorem readRaw?_eq_some_iff {text : String} {levels : Nat}
    (hlevels : (Cursor.ofText text).size ≤ levels) {v : Value} :
    readRaw? levels text = some v ↔ Denotes text v := by
  rw [denotes_iff]
  constructor
  · intro h
    unfold readRaw? at h
    split at h
    next hscan =>
      cases h
      exact ⟨_, spells_of_scan ⟨_, hscan, rfl, rfl⟩⟩
    next => cases h
  · rintro ⟨pos, hspells⟩
    obtain ⟨⟨_, ⟨pos', _⟩, hshorter⟩, hscan, rfl, rfl⟩ :=
      yields_scan hspells hlevels
    simp only [readRaw?, hscan]

/-- Texts of JSON are read, repeated names being resolved, and no others. -/
theorem ofText?_eq_some_iff {text : String} {v : Value} :
    ofText? text = some v ↔ ∃ raw, Denotes text raw ∧ raw.distinct = v := by
  simp only [ofText?, read?, Option.map_eq_some_iff,
    readRaw?_eq_some_iff (Nat.le_refl _)]

/-- A text denotes at most one value. -/
theorem denotes_unique {text : String} {v w : Value} (hv : Denotes text v)
    (hw : Denotes text w) : v = w := by
  rw [← readRaw?_eq_some_iff (Nat.le_refl _)] at hv hw
  exact Option.some.inj (hv.symm.trans hw)

end

end Value
end JsonTypedef
