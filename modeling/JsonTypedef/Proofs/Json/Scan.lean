import JsonTypedef.Proofs.Json.Text
import Mathlib.Data.List.Nodup

/-!
# What scanners yield

The result of a scanner is described by the value that it yields and the stream
that it leaves, positions aside.  `Scanner.Reaches` also admits failures of a
given kind, so that one completeness theorem serves scanners that may run out of
depth and scanners that may not.
-/

namespace JsonTypedef

open Grammar

namespace Cursor

theorem front_of_take? {c : Cursor} {t : Taken Token c} (h : c.take? = some t) :
    streamFront t.value c.stream t.rest.stream := by
  unfold take? at h
  split at h
  next =>
    cases h
    exact .mk
  next => cases h

theorem take?_of_front {c : Cursor} {t : Token} {s : Stream}
    (h : streamFront t c.stream s) :
    ∃ taken, c.take? = some taken ∧ taken.value = t ∧
      taken.rest.stream = s := by
  obtain ⟨pos, stream⟩ := c
  cases h with
  | mk => exact ⟨_, rfl, rfl, rfl⟩

theorem front_of_accept? {c : Cursor} {t : Token} {taken : Taken Unit c}
    (h : c.accept? t = some taken) :
    streamFront t c.stream taken.rest.stream := by
  unfold accept? at h
  split at h
  next u rest hshorter htake =>
    split at h
    next heq =>
      cases h
      subst heq
      exact front_of_take? htake
    next => cases h
  next => cases h

theorem accept?_of_front {c : Cursor} {t : Token} {s : Stream}
    (h : streamFront t c.stream s) :
    ∃ taken, c.accept? t = some taken ∧ taken.rest.stream = s := by
  obtain ⟨⟨u, rest, hshorter⟩, htake, rfl, rfl⟩ := take?_of_front h
  refine ⟨⟨(), rest, hshorter⟩, ?_, rfl⟩
  simp only [accept?, htake, if_true]

end Cursor

namespace Scanner

/-- The result is the value with the stream behind it. -/
def Yields {ε α : Type} {c : Cursor} (r : Except ε (Taken α c)) (a : α)
    (s : Stream) : Prop :=
  ∃ t, r = .ok t ∧ t.value = a ∧ t.rest.stream = s

/-- The result is the value with the stream behind it, or an admitted
failure. -/
def Reaches {ε α : Type} {c : Cursor} (fail : ε → Prop)
    (r : Except ε (Taken α c)) (a : α) (s : Stream) : Prop :=
  Yields r a s ∨ ∃ e, r = .error e ∧ fail e

section

variable {ε α β : Type} {c d : Cursor} {fail : ε → Prop}

theorem Yields.reaches {r : Except ε (Taken α c)} {a : α} {s : Stream}
    (h : Yields r a s) : Reaches fail r a s :=
  Or.inl h

/-- Without admitted failures the value is yielded. -/
theorem Reaches.yields {r : Except ε (Taken α c)} {a : α} {s : Stream}
    (h : Reaches (fun _ => False) r a s) : Yields r a s := by
  rcases h with h | ⟨_, _, hfalse⟩
  · exact h
  · exact hfalse.elim

/-- A result is kept where only the cursor that it counts from, or the shape of
its value, is changed. -/
theorem Reaches.map {r : Except ε (Taken α c)} {a : α} {s : Stream}
    (h : Reaches fail r a s) (f : α → β) (g : Taken α c → Taken β d)
    (hvalue : ∀ t, (g t).value = f t.value) (hrest : ∀ t, (g t).rest = t.rest) :
    Reaches fail (r.map g) (f a) s := by
  rcases h with ⟨t, rfl, rfl, rfl⟩ | ⟨e, rfl, he⟩
  · refine Or.inl ⟨g t, rfl, hvalue t, ?_⟩
    rw [hrest t]
  · exact Or.inr ⟨e, rfl, he⟩

theorem Yields.of_map {r : Except ε (Taken α c)} {b : β} {s : Stream}
    {f : α → β} {g : Taken α c → Taken β d} (h : Yields (r.map g) b s)
    (hvalue : ∀ t, (g t).value = f t.value) (hrest : ∀ t, (g t).rest = t.rest) :
    ∃ a, Yields r a s ∧ f a = b := by
  obtain ⟨t', hmap, rfl, rfl⟩ := h
  cases r with
  | error e => cases hmap
  | ok t =>
      cases hmap
      refine ⟨t.value, ⟨t, rfl, rfl, ?_⟩, (hvalue t).symm⟩
      rw [hrest t]

end

/-! ## Items between commas -/

section

variable {ε α : Type} {close : Token} {mismatch : Cursor → ε}
    {item : List α → Scanner ε α}
  {relation : α → Stream → Stream → Prop}

theorem items_of_separated
    (hitem : ∀ before c a s, Yields (item before c) a s → relation a c.stream s)
    {before : List α} {c : Cursor} {t : Taken (List α) c}
    (h : separated close mismatch item before c = .ok t) :
    Items streamFront close relation t.value c.stream t.rest.stream := by
  fun_induction separated close mismatch item before c with
  | case1 => cases h
  | case2 => cases h
  | case3 before c a behind hshorter hok next hnext htake =>
      cases h
      exact .last (hitem before c a behind.stream ⟨_, hok, rfl, rfl⟩)
        (Cursor.front_of_take? htake)
  | case4 => cases h
  | case5 before c a behind hshorter hok next hnext rest last hlast hrest htake
      hclose ih =>
      cases h
      exact .more (hitem before c a behind.stream ⟨_, hok, rfl, rfl⟩)
        (Cursor.front_of_take? htake) (ih hrest)
  | case6 => cases h

theorem contents_of_enclosed
    (hitem : ∀ before c a s, Yields (item before c) a s → relation a c.stream s)
    {c : Cursor} {as : List α} {s : Stream}
    (h : Yields (enclosed close mismatch item c) as s) :
    Contents streamFront close relation as c.stream s := by
  unfold enclosed at h
  split at h
  next t haccept =>
    obtain ⟨_, hok, rfl, rfl⟩ := h
    cases hok
    exact .empty (Cursor.front_of_accept? haccept)
  next =>
    obtain ⟨_, ⟨t, hok, rfl, rfl⟩, rfl⟩ :=
      h.of_map (f := id) (fun _ => rfl) fun _ => rfl
    exact .items (items_of_separated hitem hok)

theorem reaches_last {fail : ε → Prop} {a : α} {before : List α} {c : Cursor}
    {s s' : Stream} (ha : Reaches fail (item before c) a s)
    (hend : streamFront close s s') :
    Reaches fail (separated close mismatch item before c) [a] s' := by
  rcases ha with ⟨⟨a, behind, hshorter⟩, hok, rfl, rfl⟩ | ⟨e, herror, he⟩
  · obtain ⟨⟨_, next, hnext⟩, htake, rfl, rfl⟩ := Cursor.take?_of_front hend
    refine Or.inl ⟨⟨[a], next, Nat.lt_trans hnext hshorter⟩, ?_, rfl, rfl⟩
    rw [separated]
    simp only [hok, htake, if_true]
  · refine Or.inr ⟨e, ?_, he⟩
    rw [separated]
    simp only [herror]

theorem reaches_more {fail : ε → Prop} (hclose : close ≠ .comma) {a : α}
    {as before : List α} {c : Cursor} {s s' u : Stream}
    (ha : Reaches fail (item before c) a s) (hcomma : streamFront .comma s s')
    (hrest : ∀ next : Cursor, next.stream = s' → next.size < c.size →
      Reaches fail (separated close mismatch item (a :: before) next) as u) :
    Reaches fail (separated close mismatch item before c) (a :: as) u := by
  rcases ha with ⟨⟨a, behind, hshorter⟩, hok, rfl, rfl⟩ | ⟨e, herror, he⟩
  · obtain ⟨⟨_, next, hnext⟩, htake, rfl, rfl⟩ := Cursor.take?_of_front hcomma
    rw [separated]
    simp only [hok, htake, if_neg hclose.symm, if_true]
    rcases hrest next rfl (Nat.lt_trans hnext hshorter) with
      ⟨t, hmore, rfl, rfl⟩ | ⟨e, herror, he⟩
    · rw [hmore]
      exact Or.inl ⟨_, rfl, rfl, rfl⟩
    · rw [herror]
      exact Or.inr ⟨e, rfl, he⟩
  · refine Or.inr ⟨e, ?_, he⟩
    rw [separated]
    simp only [herror]

/-- Items are scanned where each of them is, given the items before it. -/
theorem reaches_separated {fail : ε → Prop} (hclose : close ≠ .comma)
    {bound : Nat} {as before : List α} {c : Cursor} {s : Stream}
    (hitem : ∀ xs a ys, as = xs ++ a :: ys → ∀ (d : Cursor) (u : Stream),
      d.size ≤ bound →
      relation a d.stream u → Reaches fail (item (xs.reverse ++ before) d) a u)
    (hsize : c.size ≤ bound)
    (h : Items streamFront close relation as c.stream s) :
    Reaches fail (separated close mismatch item before c) as s := by
  generalize hstream : c.stream = stream at h
  induction h generalizing before c with
  | @last a s t u ha hend =>
      subst hstream
      exact reaches_last (hitem [] a [] rfl c t hsize ha) hend
  | @more a as s t u w ha hcomma _ ih =>
      subst hstream
      refine reaches_more hclose (hitem [] a as rfl c t hsize ha) hcomma ?_
      intro next hnext hless
      refine ih ?_ (Nat.le_trans (Nat.le_of_lt hless) hsize) hnext
      rintro xs b ys rfl d u hd hb
      simpa using hitem (a :: xs) b ys rfl d u hd hb

/-- The contents of a container are scanned where each of its items is; no item
starts with the closing token. -/
theorem reaches_enclosed {fail : ε → Prop} (hclose : close ≠ .comma)
    {bound : Nat} {as : List α} {c : Cursor} {s : Stream}
    (hstart : ∀ a s s' u, relation a s s' → ¬ streamFront close s u)
    (hitem : ∀ xs a ys, as = xs ++ a :: ys → ∀ (d : Cursor) (u : Stream),
      d.size ≤ bound →
      relation a d.stream u → Reaches fail (item xs.reverse d) a u)
    (hsize : c.size ≤ bound)
    (h : Contents streamFront close relation as c.stream s) :
    Reaches fail (enclosed close mismatch item c) as s := by
  cases h with
  | empty hend =>
      obtain ⟨t, haccept, rfl⟩ := Cursor.accept?_of_front hend
      simp only [enclosed, haccept]
      exact Or.inl ⟨_, rfl, rfl, rfl⟩
  | items hitems =>
      have haccept : c.accept? close = none := by
        by_contra hsome
        obtain ⟨t, ht⟩ := Option.ne_none_iff_exists'.mp hsome
        have hfront := Cursor.front_of_accept? ht
        cases hitems with
        | last ha _ => exact hstart _ _ _ _ ha hfront
        | more ha _ _ => exact hstart _ _ _ _ ha hfront
      have hseparated :
          Reaches fail (separated close mismatch item [] c.skipBlanks)
            as s := by
        refine reaches_separated hclose (fun xs a ys has d u hd ha => ?_)
          hsize hitems
        rw [List.append_nil]
        exact hitem xs a ys has d u hd ha
      simp only [enclosed, haccept]
      exact hseparated.map id Taken.afterBlanks (fun _ => rfl) fun _ => rfl

/-- Where each item is scanned only if its name is new, no name is repeated. -/
theorem nodup_of_separated {β : Type} (name : α → β)
    (hitem : ∀ before c t, item before c = .ok t →
      name t.value ∉ before.map name)
    {before : List α} {c : Cursor} {t : Taken (List α) c}
    (h : separated close mismatch item before c = .ok t)
    (hbefore : (before.map name).Nodup) :
    ((t.value.reverse ++ before).map name).Nodup := by
  fun_induction separated close mismatch item before c with
  | case1 => cases h
  | case2 => cases h
  | case3 before c a behind hshorter hok next hnext htake =>
      cases h
      exact List.nodup_cons.mpr ⟨hitem _ _ _ hok, hbefore⟩
  | case4 => cases h
  | case5 before c a behind hshorter hok next hnext rest last hlast hrest htake
      hclose ih =>
      cases h
      have hmore := ih hrest (List.nodup_cons.mpr ⟨hitem _ _ _ hok, hbefore⟩)
      simpa using hmore
  | case6 => cases h

theorem nodup_of_enclosed {β : Type} (name : α → β)
    (hitem : ∀ before c t, item before c = .ok t →
      name t.value ∉ before.map name)
    {c : Cursor} {as : List α} {s : Stream}
    (h : Yields (enclosed close mismatch item c) as s) :
    (as.map name).Nodup := by
  unfold enclosed at h
  split at h
  next =>
    obtain ⟨_, hok, rfl, rfl⟩ := h
    cases hok
    exact List.nodup_nil
  next =>
    obtain ⟨_, ⟨t, hok, rfl, rfl⟩, rfl⟩ :=
      h.of_map (f := id) (fun _ => rfl) fun _ => rfl
    have hnodup := nodup_of_separated name hitem hok List.nodup_nil
    rwa [List.append_nil, List.map_reverse, List.nodup_reverse] at hnodup

end

end Scanner
end JsonTypedef
