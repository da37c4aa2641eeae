import JsonTypedef.Parsing.Parser
import JsonTypedef.Proofs.Json.Front

/-!
# What scanners go over

A scan at a place either yields what is spelled from there to another place, or
it fails for a reason that can be told from the text.  `Grammar.Onward` says
where among the items of a container the scan has come to; a container is
scanned as described where each of its items is.
-/

namespace JsonTypedef
namespace Grammar

section

variable {τ α : Type} (front : Front τ)

/-- From behind an opening token stand these items, the latest first, each with
a comma behind it, and the container is not closed at once. -/
inductive Onward (close : Token) (item : α → τ → τ → Prop) :
    List α → τ → τ → Prop
  | start {s : τ} : (∀ t, ¬ front close s t) → Onward close item [] s s
  | comma {before : List α} {a : α} {s t u w : τ} :
      Onward close item before s t → item a t u → front .comma u w →
        Onward close item (a :: before) s w

end

theorem Onward.ahead {α : Type} {close : Token}
    {item : α → Source → Source → Prop} {before : List α} {s s' : Source}
    (hitem : ∀ a s s', item a s s' → s.Ahead s')
    (h : Onward placeFront close item before s s') : s.Ahead s' := by
  induction h with
  | start => exact .refl _
  | comma _ ha hcomma ih =>
      exact ih.trans ((hitem _ _ _ ha).trans hcomma.ahead)

end Grammar

namespace Cursor

open Grammar

/-- The cursor at which an item is scanned, given the items before it: blanks
are skipped in front of the first one only. -/
def awaiting {α : Type} : List α → Source → Cursor
  | [], s => (ofSource s).skipBlanks
  | _ :: _, s => ofSource s

theorem at_awaiting {α : Type} (before : List α) (s : Source) :
    (awaiting before s).At s := by
  cases before with
  | nil => exact (at_ofSource s).skipBlanks
  | cons => exact at_ofSource s

end Cursor

namespace Parsing

open Grammar Scanner

/-- The scan yields what is spelled from the place to another one, or it fails
as described. -/
def Traces {α : Type} {c : Cursor} (spells : α → Source → Source → Prop)
    (fails : Failure → Prop) (s : Source) (r : Except Failure (Taken α c)) :
    Prop :=
  match r with
  | .ok t => ∃ s', t.rest = .ofSource s' ∧ spells t.value s s'
  | .error e => fails e

section

variable {α β : Type} {c d : Cursor} {spells : α → Source → Source → Prop}
    {fails : Failure → Prop} {s : Source}

theorem Traces.of_ok {r : Except Failure (Taken α c)} {t : Taken α c}
    (h : Traces spells fails s r) (hok : r = .ok t) :
    ∃ s', t.rest = .ofSource s' ∧ spells t.value s s' := by
  subst hok
  exact h

theorem Traces.of_error {r : Except Failure (Taken α c)} {e : Failure}
    (h : Traces spells fails s r) (herror : r = .error e) : fails e := by
  subst herror
  exact h

/-- A trace goes over to another cursor, value, place and reason. -/
theorem Traces.map {spells' : β → Source → Source → Prop}
    {fails' : Failure → Prop} {s₀ : Source} {r : Except Failure (Taken α c)}
    (h : Traces spells fails s r) (g : Taken α c → Taken β d)
    (hrest : ∀ t, (g t).rest = t.rest)
    (hspells : ∀ t s', spells t.value s s' → spells' (g t).value s₀ s')
    (hfails : ∀ e, fails e → fails' e) :
    Traces spells' fails' s₀ (r.map g) := by
  cases r with
  | error e => exact hfails e h
  | ok t =>
      obtain ⟨s', hs', hvalue⟩ := h
      exact ⟨s', (hrest t).trans hs', hspells t s' hvalue⟩

theorem Traces.mono {fails' : Failure → Prop}
    {r : Except Failure (Taken α c)} (h : Traces spells fails s r)
    (hfails : ∀ e, fails e → fails' e) : Traces spells fails' s r := by
  cases r with
  | error e => exact hfails e h
  | ok t => exact h

end

/-! ## Containers -/

section

variable {α : Type} {close : Token} {mismatch : Cursor → Failure}
    {item : List α → Scanner Failure α}
    {spells : α → Source → Source → Prop} {fails : Failure → Prop}
    {opened : Source}
    (hitem : ∀ before s, Onward placeFront close spells before opened s →
      Traces spells fails s (item before (.awaiting before s)))
    (hmismatch : ∀ before a s u,
      Onward placeFront close spells before opened s → spells a s u →
        (∀ u', ¬ placeFront close u u') → (∀ u', ¬ placeFront .comma u u') →
          fails (mismatch (.ofSource u)))

include hitem hmismatch

theorem separated_traces {before : List α} {s : Source}
    (h : Onward placeFront close spells before opened s) :
    Traces (Items placeFront close spells) fails s
      (separated close mismatch item before (.awaiting before s)) := by
  generalize hc : Cursor.awaiting before s = c
  -- Where neither token was taken behind an item, none stands there.
  have hnone : ∀ {u : Source} {t : Token},
      (∀ taken, (Cursor.ofSource u).take? = some taken → taken.value ≠ t) →
        ∀ u', ¬ placeFront t u u' := by
    intro u t hne u' hfront
    obtain ⟨_, htake⟩ := (Cursor.at_ofSource u).give hfront
    exact hne _ htake rfl
  fun_induction separated close mismatch item before c generalizing s with
  | case1 before c e herror =>
      subst hc
      exact (hitem before s h).of_error herror
  | case2 before c a behind hshorter hok htake =>
      subst hc
      obtain ⟨u, rfl, ha⟩ := (hitem before s h).of_ok hok
      apply hmismatch before a s u h ha
      · exact hnone (by simp [htake])
      · exact hnone (by simp [htake])
  | case3 before c a behind hshorter hok next hnext htake =>
      subst hc
      obtain ⟨u, rfl, ha⟩ := (hitem before s h).of_ok hok
      obtain ⟨w, rfl, hend⟩ := (Cursor.at_ofSource u).front ⟨hnext, htake⟩
      exact ⟨w, rfl, .last ha hend⟩
  | case4 before c a behind hshorter hok next hnext e herror htake hne ih =>
      subst hc
      obtain ⟨u, rfl, ha⟩ := (hitem before s h).of_ok hok
      obtain ⟨w, rfl, hcomma⟩ := (Cursor.at_ofSource u).front ⟨hnext, htake⟩
      exact (ih (.comma h ha hcomma) rfl).of_error herror
  | case5 before c a behind hshorter hok next hnext rest last hlast hrest htake
      hne ih =>
      subst hc
      obtain ⟨u, rfl, ha⟩ := (hitem before s h).of_ok hok
      obtain ⟨w, rfl, hcomma⟩ := (Cursor.at_ofSource u).front ⟨hnext, htake⟩
      obtain ⟨x, rfl, hitems⟩ := (ih (.comma h ha hcomma) rfl).of_ok hrest
      exact ⟨x, rfl, .more ha hcomma hitems⟩
  | case6 before c a behind hshorter hok t next hnext htake hclose hcomma =>
      subst hc
      obtain ⟨u, rfl, ha⟩ := (hitem before s h).of_ok hok
      apply hmismatch before a s u h ha
      · exact hnone (by simpa [htake] using hclose)
      · exact hnone (by simpa [htake] using hcomma)

theorem enclosed_traces :
    Traces (Contents placeFront close spells) fails opened
      (enclosed close mismatch item (.ofSource opened)) := by
  unfold enclosed
  split
  next t haccept =>
    obtain ⟨s', hrest, hend⟩ :=
      (Cursor.at_ofSource opened).front (Cursor.front_of_accept haccept)
    exact ⟨s', hrest, .empty hend⟩
  next hnone =>
    have hstart : Onward placeFront close spells [] opened opened := by
      apply Onward.start
      intro t hfront
      exact Cursor.not_front_of_accept?_eq_none hnone
        ((Cursor.at_ofSource opened).give hfront)
    have hitems := separated_traces hitem hmismatch hstart
    exact hitems.map _ (fun _ => rfl) (fun _ _ => .items) fun _ he => he

end

end Parsing
end JsonTypedef
