import JsonTypedef.Proofs.Json.Same
import Mathlib.Data.List.Perm.Basic

/-!
# Members in another order

`Shuffled` relates lists whose entries are related one to one, whatever their
order.  Objects that are the same have shuffled members, and a look-up by name
finds members that are the same in both.
-/

namespace JsonTypedef

/-- The entries of two lists are related one to one, whatever their order. -/
def Shuffled {α β : Type} (rel : α → β → Prop) (as : List α) (bs : List β) :
    Prop :=
  ∃ cs, as.Perm cs ∧ List.Forall₂ rel cs bs

/-- Entries of one name whose contents are related. -/
def Named {α β : Type} (rel : α → β → Prop) (a : String × α) (b : String × β) :
    Prop :=
  a.1 = b.1 ∧ rel a.2 b.2

namespace Shuffled

variable {α β γ : Type} {rel rel' : α → β → Prop} {as : List α} {bs : List β}

theorem of_forall₂ (h : List.Forall₂ rel as bs) : Shuffled rel as bs :=
  ⟨as, List.Perm.refl _, h⟩

theorem of_perm {as as' : List α} (h : as.Perm as') : Shuffled Eq as as' :=
  ⟨as', h, List.forall₂_same.mpr fun _ _ => rfl⟩

theorem imp_mem (himp : ∀ a ∈ as, ∀ b, rel a b → rel' a b)
    (h : Shuffled rel as bs) : Shuffled rel' as bs := by
  obtain ⟨cs, hperm, hforall⟩ := h
  have himp : ∀ c ∈ cs, ∀ b, rel c b → rel' c b :=
    fun c hc => himp c (hperm.mem_iff.mpr hc)
  refine ⟨cs, hperm, ?_⟩
  exact ((List.forall₂_and_left _ _).mpr ⟨himp, hforall⟩).imp
    fun c b ⟨himp, hrel⟩ => himp b hrel

/-- What is alike in related entries makes up permuted lists. -/
theorem perm_map {f : α → γ} {g : β → γ} (heq : ∀ a b, rel a b → f a = g b)
    (h : Shuffled rel as bs) : (as.map f).Perm (bs.map g) := by
  obtain ⟨cs, hperm, hforall⟩ := h
  have hmap : cs.map f = bs.map g := by
    rw [← List.forall₂_eq_eq_eq, List.forall₂_map_left_iff,
      List.forall₂_map_right_iff]
    exact hforall.imp heq
  rw [← hmap]
  exact hperm.map f

theorem symm (h : Shuffled rel as bs) : Shuffled (flip rel) bs as := by
  obtain ⟨cs, hperm, hforall⟩ := h
  obtain ⟨ds, hds, hperm'⟩ := List.perm_comp_forall₂ hperm hforall
  exact ⟨ds, hperm'.symm, hds.flip⟩

theorem trans {rel' : β → γ → Prop} {cs : List γ} (h : Shuffled rel as bs)
    (h' : Shuffled rel' bs cs) : Shuffled (Relation.Comp rel rel') as cs := by
  obtain ⟨as', hperm, hforall⟩ := h
  obtain ⟨bs', hperm', hforall'⟩ := h'
  obtain ⟨as'', has, hperm''⟩ :=
    List.perm_comp_forall₂ hperm'.symm hforall.flip
  exact ⟨as'', hperm.trans hperm''.symm, forall₂_of_forall₂ has hforall'⟩

theorem append {cs : List α} {ds : List β} (h : Shuffled rel as bs)
    (h' : Shuffled rel cs ds) : Shuffled rel (as ++ cs) (bs ++ ds) := by
  obtain ⟨as', hperm, hforall⟩ := h
  obtain ⟨cs', hperm', hforall'⟩ := h'
  exact ⟨as' ++ cs', hperm.append hperm', List.rel_append hforall hforall'⟩

end Shuffled

section

variable {α β : Type} {rel : α → β → Prop} {as : List (String × α)}
    {bs : List (String × β)}

theorem Shuffled.names_perm (h : Shuffled (Named rel) as bs) :
    (as.map Prod.fst).Perm (bs.map Prod.fst) :=
  h.perm_map fun _ _ hnamed => hnamed.1

/-- What the contents on the left impart to related ones. -/
theorem Shuffled.forall_contents {holds : β → Prop}
    (h : Shuffled (Named rel) as bs)
    (hholds : ∀ a ∈ as, ∀ b, rel a.2 b → holds b) : ∀ b ∈ bs, holds b.2 := by
  intro b hb
  obtain ⟨cs, hperm, hforall⟩ := h
  obtain ⟨c, hc, -, hrel⟩ := exists_mem_of_forall₂ hforall hb
  exact hholds c (hperm.mem_iff.mpr hc) _ hrel

/-- Where no name is repeated, a look-up finds related contents. -/
theorem Shuffled.lookup (h : Shuffled (Named rel) as bs)
    (hnodup : (as.map Prod.fst).Nodup) (name : String) :
    Option.Rel rel (List.lookup name as) (List.lookup name bs) := by
  have hnodup' : (bs.map Prod.fst).Nodup := h.names_perm.nodup_iff.mp hnodup
  obtain ⟨cs, hperm, hforall⟩ := h
  cases hb : List.lookup name bs with
  | some b =>
      obtain ⟨c, hc, hname, hrel⟩ :=
        exists_mem_of_forall₂ hforall (mem_of_lookup hb)
      obtain ⟨key, a⟩ := c
      obtain rfl : key = name := hname
      rw [lookup_of_mem hnodup (hperm.mem_iff.mpr hc)]
      exact .some hrel
  | none =>
      have hnotMem : name ∉ bs.map Prod.fst := by
        rw [← lookup_isSome_iff, hb]
        exact Bool.false_ne_true
      have hnone : List.lookup name as = none := by
        rw [← Option.not_isSome_iff_eq_none, lookup_isSome_iff,
          (hperm.map Prod.fst).mem_iff,
          map_fst_of_forall₂ (fun _ _ hnamed => hnamed.1) hforall]
        exact hnotMem
      rw [hnone]
      exact .none

/-- Entries whose names stand in one order stand in one order themselves. -/
theorem Shuffled.forall₂_of_names_eq (h : Shuffled (Named rel) as bs)
    (hnames : as.map Prod.fst = bs.map Prod.fst)
    (hnodup : (as.map Prod.fst).Nodup) : List.Forall₂ (Named rel) as bs := by
  have hfound : ∀ a ∈ as, List.lookup a.1 as = some a.2 :=
    fun a ha => lookup_of_mem hnodup ha
  have hfound' : ∀ b ∈ bs, List.lookup b.1 bs = some b.2 :=
    fun b hb => lookup_of_mem (hnames ▸ hnodup) hb
  have hnamed : List.Forall₂ (fun a b => a.1 = b.1) as bs := by
    rw [← List.forall₂_eq_eq_eq, List.forall₂_map_left_iff,
      List.forall₂_map_right_iff] at hnames
    exact hnames
  have hleft := (List.forall₂_and_left _ _).mpr ⟨hfound, hnamed⟩
  have hboth := (List.forall₂_and_left _ _).mpr ⟨hfound', hleft.flip⟩
  refine hboth.flip.imp fun a b ⟨hb, ha, hname⟩ => ⟨hname, ?_⟩
  have hrel := h.lookup hnodup a.1
  rw [ha, hname, hb] at hrel
  cases hrel with
  | some hrel => exact hrel

end

/-! ## Values -/

namespace Value

theorem Same.symm {v w : Value} (h : v.Same w) : w.Same v := by
  induction v generalizing w with
  | null => cases h; exact .null
  | bool b => cases h; exact .bool b
  | num n => cases h; exact .num n
  | str s => cases h; exact .str s
  | arr items ih =>
      cases h with
      | arr hforall =>
          refine .arr (List.Forall₂.flip ?_)
          exact ((List.forall₂_and_left _ _).mpr ⟨ih, hforall⟩).imp
            fun _ _ ⟨ih, hsame⟩ => ih hsame
  | obj members ih =>
      cases h with
      | obj hperm hforall =>
          obtain ⟨ls, hls, hperm'⟩ := List.perm_comp_forall₂ hperm hforall
          refine .obj hperm'.symm (List.Forall₂.flip ?_)
          refine ((List.forall₂_and_left _ _).mpr ⟨ih, hls⟩).imp ?_
          rintro _ _ ⟨ih, ⟨hsame⟩⟩
          exact .mk (ih hsame)

theorem Same.trans {u v w : Value} (huv : u.Same v) (hvw : v.Same w) :
    u.Same w := by
  induction u generalizing v w with
  | arr items ih =>
      cases huv with
      | arr hforall =>
          cases hvw with
          | arr hforall' =>
              have hboth := (List.forall₂_and_left _ _).mpr ⟨ih, hforall⟩
              apply Same.arr
              refine (forall₂_of_forall₂ hboth.flip hforall').imp ?_
              rintro u w ⟨v, ⟨ih, huv⟩, hvw⟩
              exact ih huv hvw
  | obj members ih =>
      cases huv with
      | obj hperm hforall =>
          cases hvw with
          | @obj _ _ ns hperm' hforall' =>
              have hshuffled :=
                Shuffled.trans ⟨_, hperm, hforall⟩ ⟨_, hperm', hforall'⟩
              have hsame : Shuffled (SameMember Same) members ns := by
                refine hshuffled.imp_mem ?_
                rintro m hm n ⟨k, ⟨huv⟩, ⟨hvw⟩⟩
                exact .mk (ih _ hm huv hvw)
              obtain ⟨ls, hperm, hforall⟩ := hsame
              exact .obj hperm hforall
  | _ =>
      cases huv
      exact hvw

/-- The first value repeats no name, and the second one is the same but for the
order of members. -/
structure Rearranged (v w : Value) : Prop where
  distinct : v.Distinct
  same : v.Same w

namespace Rearranged

variable {ms ns : List (String × Value)} {vs ws : List Value}

theorem refl {v : Value} (hv : v.Distinct) : v.Rearranged v :=
  ⟨hv, Same.refl v⟩

theorem symm {v w : Value} (h : v.Rearranged w) : w.Rearranged v :=
  ⟨h.same.distinct h.distinct, h.same.symm⟩

theorem items (h : (Value.arr vs).Rearranged (.arr ws)) :
    List.Forall₂ Rearranged vs ws := by
  obtain ⟨hdistinct, hsame⟩ := h
  cases hdistinct with
  | arr hitems =>
      cases hsame with
      | arr hforall =>
          exact ((List.forall₂_and_left _ _).mpr ⟨hitems, hforall⟩).imp
            fun v w ⟨hv, hvw⟩ => ⟨hv, hvw⟩

theorem members (h : (Value.obj ms).Rearranged (.obj ns)) :
    Shuffled (Named Rearranged) ms ns := by
  have hshuffled : Shuffled (Named Same) ms ns := by
    cases h.same with
    | obj hperm hforall =>
        refine ⟨_, hperm, hforall.imp ?_⟩
        rintro _ _ ⟨hsame⟩
        exact ⟨rfl, hsame⟩
  refine hshuffled.imp_mem fun m hm n hnamed => ?_
  exact ⟨hnamed.1, h.distinct.of_mem hm, hnamed.2⟩

theorem keys_perm (h : (Value.obj ms).Rearranged (.obj ns)) :
    (Members.keys ms).Perm (Members.keys ns) :=
  h.members.names_perm

/-- The member of a name is rearranged with the value. -/
theorem get?_rel (h : (Value.obj ms).Rearranged (.obj ns)) (key : String) :
    Option.Rel Rearranged (Members.get? ms key) (Members.get? ns key) :=
  h.members.lookup h.distinct.nodup_keys key

end Rearranged
end Value
end JsonTypedef
