import JsonTypedef.Proofs.Parsing.Agreement

/-!
# Parsers and the depth limit

A parser counts the nodes that it reads along, as the validator does, and also
the containers of values that no node describes.  `Program.Exceeds` says when
both together nest deeper than a limit.  Under a greater limit a parse ends in
the same way, unless it met the lower limit; and it meets a limit on the text of
a valid value exactly when the value exceeds it.
-/

namespace JsonTypedef

/-- The containers of the value nest at most `levels` deep. -/
def Value.NestsWithin : Nat → Value → Prop
  | 0, .arr _ => False
  | 0, .obj _ => False
  | levels + 1, .arr items => ∀ v ∈ items, v.NestsWithin levels
  | levels + 1, .obj ms => ∀ m ∈ ms, m.2.NestsWithin levels
  | _, _ => True

/-- Greater limits of nesting admit more values. -/
theorem Value.NestsWithin.succ {levels : Nat} {v : Value}
    (h : v.NestsWithin levels) : v.NestsWithin (levels + 1) := by
  induction levels generalizing v with
  | zero =>
      cases v with
      | arr items => exact h.elim
      | obj ms => exact h.elim
      | _ => trivial
  | succ levels ih =>
      cases v with
      | arr items => exact fun v hv => ih (h v hv)
      | obj ms => exact fun m hm => ih (h m hm)
      | _ => trivial

theorem Value.NestsWithin.of_zero {levels : Nat} {v : Value}
    (h : v.NestsWithin 0) : v.NestsWithin levels := by
  induction levels with
  | zero => exact h
  | succ levels ih => exact ih.succ

namespace Program

section

variable (exceeds : Node → Value → Prop) (deep : Value → Prop)

/-- A member exceeds along its declaration, or without one. -/
def MemberExceeds (p : Properties) (m : String × Value) : Prop :=
  match p.member? m.1 with
  | some n => exceeds n m.2
  | none => deep m.2

variable {exceeds deep} in
theorem memberExceeds_of_some {p : Properties} {m : String × Value} {n : Node}
    (h : p.member? m.1 = some n) :
    MemberExceeds exceeds deep p m ↔ exceeds n m.2 := by
  simp only [MemberExceeds, h]

variable {exceeds deep} in
theorem memberExceeds_of_none {p : Properties} {m : String × Value}
    (h : p.member? m.1 = none) :
    MemberExceeds exceeds deep p m ↔ deep m.2 := by
  simp only [MemberExceeds, h]

/-- A part of the value exceeds along its own node, or it is too deep where no
node describes it. -/
inductive FormExceeds (target : Nat → Node) : Form → Value → Prop
  | empty {v : Value} : deep v → FormExceeds target .empty v
  | ref {i : Nat} {v : Value} :
      exceeds (target i) v → FormExceeds target (.ref i) v
  | elements {item : Node} {items : List Value} {v : Value} :
      v ∈ items → exceeds item v →
        FormExceeds target (.elements item) (.arr items)
  | values {item : Node} {ms : Members} {m : String × Value} :
      m ∈ ms → exceeds item m.2 →
        FormExceeds target (.values item) (.obj ms)
  | properties {p : Properties} {ms : Members} {m : String × Value} :
      m ∈ ms → MemberExceeds exceeds deep p m →
        FormExceeds target (.properties p) (.obj ms)
  | discriminator {tag value : String} {branches : List (String × Branch)}
      {branch : Branch} {ms : Members} {m : String × Value} :
      ms.get? tag = some (.str value) →
        List.lookup value branches = some branch → m ∈ ms → m.1 ≠ tag →
          MemberExceeds exceeds deep branch.properties m →
            FormExceeds target (.discriminator tag branches) (.obj ms)

end

/-- Along a node more than `depth` nodes are nested, the containers of values
that no node describes being counted too. -/
def Exceeds (target : Nat → Node) : Nat → Node → Value → Prop
  | 0, _, _ => True
  | depth + 1, n, v =>
    ¬ Validator.isNullAt n v = true ∧
      FormExceeds (Exceeds target depth) (fun v => ¬ v.NestsWithin depth) target
        n.form v

end Program

namespace Parsing

open Grammar Scanner Program

/-- The parse met the depth limit. -/
def Failure.IsDepth (e : Failure) : Prop :=
  ∃ limit, e.reason = .depthExceeded limit

/-- The second result is that of the first, or the first met the depth limit,
and then a value in the second is too deep. -/
def Settles {α : Type} {c : Cursor} (deep : α → Prop)
    (r r' : Except Failure (Taken α c)) : Prop :=
  r' = r ∨
    (∃ e, r = .error e ∧ e.IsDepth) ∧ ∀ t, r' = .ok t → deep t.value

section

variable {α β : Type} {c d : Cursor} {deep : α → Prop}

theorem Settles.refl (r : Except Failure (Taken α c)) : Settles deep r r :=
  Or.inl rfl

/-- A first result that met the limit. -/
theorem Settles.of_error {e : Failure} {r : Except Failure (Taken α c)}
    (he : e.IsDepth) (h : ∀ t, r = .ok t → deep t.value) :
    Settles deep (.error e) r :=
  Or.inr ⟨⟨e, rfl, he⟩, h⟩

theorem Settles.mono {deep' : α → Prop} {r r' : Except Failure (Taken α c)}
    (h : Settles deep r r') (hdeep : ∀ a, deep a → deep' a) :
    Settles deep' r r' :=
  h.imp_right (And.imp_right fun hok t ht => hdeep _ (hok t ht))

theorem Settles.map {deep' : β → Prop} {r r' : Except Failure (Taken α c)}
    (h : Settles deep r r') (g : Taken α c → Taken β d)
    (hg : ∀ t, deep t.value → deep' (g t).value) :
    Settles deep' (r.map g) (r'.map g) := by
  rcases h with rfl | ⟨⟨e, rfl, he⟩, hdeep⟩
  · exact .refl _
  · apply Settles.of_error he
    intro t ht
    obtain ⟨t', rfl, rfl⟩ := exists_ok_of_map ht
    exact hg t' (hdeep t' rfl)

/-! ## Items between commas -/

variable {close : Token} {mismatch : Cursor → Failure}
    {item item' : List α → Scanner Failure α}

/-- The first item is among those that are scanned. -/
theorem mem_of_separated {before : List α} {t : Taken (List α) c}
    (h : separated close mismatch item before c = .ok t) :
    ∃ a, item before c = .ok a ∧ a.value ∈ t.value := by
  rw [separated] at h
  split at h
  next => cases h
  next a behind hitem hok =>
    refine ⟨_, hok, ?_⟩
    split at h
    next => cases h
    next =>
      split at h
      next =>
        cases h
        exact List.mem_cons_self
      next =>
        split at h
        next =>
          split at h
          next => cases h
          next =>
            cases h
            exact List.mem_cons_self
        next => cases h

theorem separated_settles
    (hitem : ∀ before c, Settles deep (item before c) (item' before c))
    (before : List α) (c : Cursor) :
    Settles (fun as => ∃ a ∈ as, deep a)
      (separated close mismatch item before c)
      (separated close mismatch item' before c) := by
  induction hsize : c.size using Nat.strongRecOn generalizing before c with
  | ind size ih =>
      rcases hitem before c with heq | ⟨⟨e, herror, he⟩, hdeep⟩
      · rw [separated, separated, heq]
        split
        next => exact .refl _
        next a behind hshorter _ =>
          split
          next => exact .refl _
          next t next hnext _ =>
            by_cases hclose : t = close
            · simp only [if_pos hclose]
              exact .refl _
            · by_cases hcomma : t = .comma
              · have hless : next.size < size := by
                  rw [← hsize]
                  exact Nat.lt_trans hnext hshorter
                have hrest := ih next.size hless (a :: before) next rfl
                simp only [if_neg hclose, if_pos hcomma]
                rcases hrest with heq' | ⟨⟨e, herror, he⟩, hdeep⟩
                · rw [heq']
                  exact .refl _
                · rw [herror]
                  apply Settles.of_error he
                  intro t ht
                  split at ht
                  next => cases ht
                  next rest last hlast hok =>
                    cases ht
                    obtain ⟨b, hb, hbdeep⟩ := hdeep _ hok
                    exact ⟨b, List.mem_cons_of_mem _ hb, hbdeep⟩
              · simp only [if_neg hclose, if_neg hcomma]
                exact .refl _
      · have hfirst : separated close mismatch item before c = .error e := by
          rw [separated, herror]
        rw [hfirst]
        apply Settles.of_error he
        intro t ht
        obtain ⟨a, ha, hmem⟩ := mem_of_separated ht
        exact ⟨a.value, hmem, hdeep a ha⟩

theorem enclosed_settles
    (hitem : ∀ before c, Settles deep (item before c) (item' before c))
    (c : Cursor) :
    Settles (fun as => ∃ a ∈ as, deep a) (enclosed close mismatch item c)
      (enclosed close mismatch item' c) := by
  unfold enclosed
  split
  next => exact .refl _
  next => exact (separated_settles hitem [] c.skipBlanks).map _ fun _ h => h

end

/-! ## Containers -/

variable {config : Config} {limit : Nat}

theorem member_settles {deep : String → Value → Prop}
    {value value' : MemberValue}
    (hvalue : ∀ key pos c, Settles (deep key) (value key pos c)
      (value' key pos c))
    (before : Members) (c : Cursor) :
    Settles (fun m => deep m.1 m.2) (member value before c)
      (member value' before c) := by
  unfold member
  split
  next =>
    split
    next => exact .refl _
    next =>
      split
      next => exact .refl _
      next => exact (hvalue _ _ _).map _ fun _ h => h
  next => exact .refl _

theorem members_settles {deep : String → Value → Prop}
    {value value' : MemberValue}
    (hvalue : ∀ key pos c, Settles (deep key) (value key pos c)
      (value' key pos c)) (c : Cursor) :
    Settles (fun ms : Members => ∃ m ∈ ms, deep m.1 m.2) (members value c)
      (members value' c) :=
  enclosed_settles (member_settles hvalue) c

theorem items_settles {deep : Value → Prop}
    {item item' : Scanner Failure Value}
    (hitem : ∀ c, Settles deep (item c) (item' c)) (c : Cursor) :
    Settles (fun vs => ∃ v ∈ vs, deep v) (items item c) (items item' c) :=
  enclosed_settles (fun _ => hitem) c

/-! ## Values without a node -/

theorem not_nestsWithin_arr {levels : Nat} {vs : List Value}
    (h : ∃ v ∈ vs, ¬ v.NestsWithin levels) :
    ¬ (Value.arr vs).NestsWithin (levels + 1) := by
  obtain ⟨v, hv, hdeep⟩ := h
  intro hvs
  exact hdeep (hvs v hv)

theorem not_nestsWithin_obj {levels : Nat} {ms : Members}
    (h : ∃ m ∈ ms, ¬ m.2.NestsWithin levels) :
    ¬ (Value.obj ms).NestsWithin (levels + 1) := by
  obtain ⟨m, hm, hdeep⟩ := h
  intro hms
  exact hdeep (hms m hm)

theorem untyped_settles {depth depth' : Nat} (hle : depth ≤ depth')
    (c : Cursor) :
    Settles (fun v => ¬ v.NestsWithin depth) (untyped config depth c)
      (untyped { config with maxDepth := limit } depth' c) := by
  induction depth generalizing depth' c with
  | zero =>
      obtain ⟨inner, hinner⟩ :=
        untyped_eq_untypedWith { config with maxDepth := limit } depth'
      rw [hinner, untyped]
      unfold untypedWith
      split
      next => exact .refl _
      next => exact .refl _
      next => exact .refl _
      next => exact .refl _
      next =>
        apply Settles.of_error ⟨_, rfl⟩
        intro t ht
        split at ht
        next => cases ht
        next =>
          obtain ⟨t', -, rfl⟩ := exists_ok_of_map ht
          exact fun h => h
      next =>
        apply Settles.of_error ⟨_, rfl⟩
        intro t ht
        split at ht
        next => cases ht
        next =>
          obtain ⟨t', -, rfl⟩ := exists_ok_of_map ht
          exact fun h => h
      next => exact .refl _
      next => exact .refl _
  | succ depth ih =>
      obtain ⟨depth', rfl⟩ : ∃ d, depth' = d + 1 := ⟨depth' - 1, by omega⟩
      have hinner := fun c => ih (Nat.le_of_succ_le_succ hle) c
      rw [untyped, untyped]
      unfold untypedWith
      split
      next => exact .refl _
      next => exact .refl _
      next => exact .refl _
      next => exact .refl _
      next =>
        exact (items_settles hinner _).map _ fun _ h => not_nestsWithin_arr h
      next =>
        exact (members_settles (fun _ _ => hinner) _).map _
          fun _ h => not_nestsWithin_obj h
      next => exact .refl _
      next => exact .refl _

/-! ## Values along a node -/

section

variable {node node' : Node → Scanner Failure Value}
    {other other' : Scanner Failure Value} {exceeds : Node → Value → Prop}
    {deep : Value → Prop} {target : Nat → Node} {p : Program.Properties}
    (hnode : ∀ n c, n.form.WellNamed →
      Settles (exceeds n) (node n c) (node' n c))
    (hother : ∀ c, Settles deep (other c) (other' c))

include hnode hother

theorem memberValue_settles (hp : ∀ m ∈ p.declared, m.2.form.WellNamed)
    (tag : Option String) (key : String) (pos : Nat) (c : Cursor) :
    Settles (fun v => tag ≠ some key ∧ MemberExceeds exceeds deep p (key, v))
      (memberValue node other p tag key pos c)
      (memberValue node' other' p tag key pos c) := by
  unfold memberValue
  by_cases htag : tag = some key
  · rw [if_pos htag, if_pos htag]
    exact .refl _
  · rw [if_neg htag, if_neg htag]
    cases hmember : p.member? key with
    | some n =>
        have hn := hp _ (Properties.mem_of_member? hmember)
        apply (hnode n c hn).mono
        exact fun v h => ⟨htag, (memberExceeds_of_some hmember).mpr h⟩
    | none =>
        cases p.additional with
        | true =>
            apply (hother c).mono
            exact fun v h => ⟨htag, (memberExceeds_of_none hmember).mpr h⟩
        | false => exact .refl _

theorem properties_settles (hp : ∀ m ∈ p.declared, m.2.form.WellNamed)
    (tag : Option String) (c : Cursor) :
    Settles
      (fun v => ∃ ms, v = .obj ms ∧
        ∃ m ∈ ms, tag ≠ some m.1 ∧ MemberExceeds exceeds deep p m)
      (properties node other p tag c) (properties node' other' p tag c) := by
  have hmembers :=
    members_settles (memberValue_settles hnode hother hp tag) c
  unfold properties
  rcases hmembers with heq | ⟨⟨e, herror, he⟩, hdeep⟩
  · rw [heq]
    exact .refl _
  · rw [herror]
    apply Settles.of_error he
    intro t ht
    split at ht
    next => cases ht
    next t' ht' =>
      split at ht
      next => cases ht
      next =>
        cases ht
        exact ⟨t'.value, rfl, hdeep t' ht'⟩

variable (hreads : ∀ n c v s, n.form.WellNamed → Yields (node' n c) v s →
      Reads v c.stream s ∧ True)
    (hothers : ∀ c v s, Yields (other' c) v s → Reads v c.stream s)

include hreads hothers

theorem discriminator_settles {tag : String}
    {branches : List (String × Program.Branch)}
    (hform : (Program.Form.discriminator tag branches).WellNamed)
    (c : Cursor) :
    Settles (FormExceeds exceeds deep target (.discriminator tag branches))
      (discriminator node other tag branches c)
      (discriminator node' other' tag branches c) := by
  cases hform with
  | discriminator htags hbranches =>
      unfold discriminator
      split
      next => exact .refl _
      next brace _ =>
        split
        next => exact .refl _
        next value pos hlook =>
          split
          next => exact .refl _
          next branch hbranch =>
            have hmem := mem_of_lookup hbranch
            have hnamed := hbranches _ hmem
            have hread := properties_settles hnode hother
              (fun m hm => hnamed.of_declared hm) (some tag) brace.rest
            rcases hread with heq | ⟨⟨e, herror, he⟩, hdeep⟩
            · rw [heq]
              exact .refl _
            · rw [herror]
              apply Settles.of_error he
              intro t ht
              obtain ⟨t', ht', rfl⟩ := exists_ok_of_map ht
              obtain ⟨ms, hms, m, hm, htag, hexceeds⟩ := hdeep t' ht'
              obtain ⟨ms', hms', hspells, -⟩ :=
                properties_sound hreads hothers hnamed (by
                  rintro t ⟨⟩
                  exact htags _ hmem) ⟨t', ht', rfl, rfl⟩
              obtain rfl : ms' = ms := by
                rw [hms] at hms'
                exact (Value.obj.inj hms').symm
              have hget := (lookAhead_eq_ok_iff hspells).mp ⟨pos, hlook⟩
              have hvalue : (t'.after brace.shorter).value = .obj ms' := hms
              rw [hvalue]
              apply FormExceeds.discriminator hget hbranch hm _ hexceeds
              intro heq
              exact htag (congrArg some heq.symm)

theorem form_settles (htarget : ∀ i, (target i).form.WellNamed)
    {f : Program.Form} (hform : f.WellNamed) (c : Cursor) :
    Settles (FormExceeds exceeds deep target f)
      (form config target node other f c)
      (form { config with maxDepth := limit } target node' other' f c) := by
  cases f with
  | empty => exact (hother c).mono fun v h => .empty h
  | ref i => exact (hnode (target i) c (htarget i)).mono fun v h => .ref h
  | type kind => exact .refl _
  | enum values => exact .refl _
  | elements item =>
      cases hform with
      | elements hitem =>
          unfold form
          dsimp only
          split
          next => exact .refl _
          next bracket _ =>
            apply (items_settles (fun c => hnode item c hitem) _).map
            rintro t ⟨v, hv, hexceeds⟩
            exact .elements hv hexceeds
  | values item =>
      cases hform with
      | values hitem =>
          unfold form
          dsimp only
          split
          next => exact .refl _
          next brace _ =>
            apply (members_settles (fun _ _ c => hnode item c hitem) _).map
            rintro t ⟨m, hm, hexceeds⟩
            exact .values hm hexceeds
  | properties p =>
      unfold form
      dsimp only
      split
      next => exact .refl _
      next brace _ =>
        apply (properties_settles hnode hother
          (fun m hm => hform.of_declared hm) none _).map
        rintro t ⟨ms, hms, m, hm, -, hexceeds⟩
        have hvalue : (t.after brace.shorter).value = .obj ms := hms
        rw [hvalue]
        exact .properties hm hexceeds
  | discriminator tag branches =>
      exact discriminator_settles hnode hother hreads hothers hform c

end

theorem ne_null_of_accept? {c : Cursor} {v : Value} {s : Stream}
    (hnone : c.accept? .null = none) (h : Spells streamFront v c.stream s) :
    v ≠ .null := by
  rintro rfl
  cases h with
  | null hfront =>
      obtain ⟨taken, htaken, -⟩ := Cursor.accept?_of_front hfront
      rw [hnone] at htaken
      cases htaken

/-- Where null is admitted it is read without regard to the form. -/
theorem nullOr_settles {n : Node} {scan scan' : Scanner Failure Value}
    {deep : Value → Prop} {c : Cursor} (h : Settles deep (scan c) (scan' c))
    (hreads : ∀ v s, Yields (scan' c) v s → Reads v c.stream s) :
    Settles (fun v => ¬ Validator.isNullAt n v = true ∧ deep v)
      (nullOr n.nullable scan c) (nullOr n.nullable scan' c) := by
  rcases h with heq | ⟨⟨e, herror, he⟩, hdeep⟩
  · left
    simp only [nullOr, heq]
  · unfold nullOr
    split
    next => exact .refl _
    next =>
      cases haccept : c.accept? .null with
      | some t => exact .refl _
      | none =>
          simp only [herror]
          apply Settles.of_error he
          intro t ht
          refine ⟨fun hnull => ?_, hdeep t ht⟩
          have hspells := (hreads _ _ ⟨t, ht, rfl, rfl⟩).spells
          exact ne_null_of_accept? haccept hspells
            (Validator.eq_null_of_isNullAt hnull).1
    next hnullable =>
      rw [herror]
      apply Settles.of_error he
      intro t ht
      refine ⟨fun hnull => ?_, hdeep t ht⟩
      rw [(Validator.eq_null_of_isNullAt hnull).2] at hnullable
      cases hnullable

/-- Under a greater limit a parse along a node ends in the same way, unless it
met the lower limit. -/
theorem node_settles {target : Nat → Node}
    (htarget : ∀ i, (target i).form.WellNamed) {depth depth' : Nat}
    (hle : depth ≤ depth') {n : Node} (hn : n.form.WellNamed) (c : Cursor) :
    Settles (Exceeds target depth n) (node config target depth n c)
      (node { config with maxDepth := limit } target depth' n c) := by
  induction depth generalizing depth' n c with
  | zero => exact .of_error ⟨_, rfl⟩ fun t _ => trivial
  | succ depth ih =>
      obtain ⟨depth', rfl⟩ : ∃ d, depth' = d + 1 := ⟨depth' - 1, by omega⟩
      have hless := Nat.le_of_succ_le_succ hle
      have hother : ∀ c, Settles (fun v => ¬ v.NestsWithin depth)
          (untyped config depth c)
          (untyped { config with maxDepth := limit } depth' c) :=
        untyped_settles hless
      have hreads : ∀ n c v s, n.form.WellNamed →
          Yields (node { config with maxDepth := limit } target depth' n c)
            v s → Reads v c.stream s ∧ True :=
        fun n c v s hn h => ⟨(node_sound htarget hn h).1, trivial⟩
      have hothers : ∀ c v s,
          Yields (untyped { config with maxDepth := limit } depth' c) v s →
            Reads v c.stream s :=
        fun c v s h => untyped_sound h
      have hform : Settles
          (FormExceeds (Exceeds target depth) (fun v => ¬ v.NestsWithin depth)
            target n.form)
          (form config target (node config target depth)
            (untyped config depth) n.form c.skipBlanks)
          (form { config with maxDepth := limit } target
            (node { config with maxDepth := limit } target depth')
            (untyped { config with maxDepth := limit } depth') n.form
            c.skipBlanks) :=
        form_settles (fun n c hn => ih hless hn c) hother hreads hothers
          htarget hn c.skipBlanks
      have hnull := nullOr_settles (n := n) hform fun v s h =>
        (form_sound hreads hothers htarget hn h).1
      unfold node
      exact hnull.map _ fun t h => h

end Parsing
end JsonTypedef
