import JsonTypedef.Proofs.Directory.Loading
import JsonTypedef.Proofs.Json.Reordering
import JsonTypedef.Proofs.Text.ByteOrder

/-!
# Directories in whatever order they are listed

The entries of a directory are listed in no particular order, and loading stops
at the first of them that it refuses.  Whether it refuses one, and what it loads
otherwise, is said of the entries without their order: `NamedFor` says which
files hold schemas, and `Supplies` which document an entry holds under which
name.
-/

namespace JsonTypedef
namespace Directory

/-! ## Names of files -/

/-- A file holds the schema of a name in a format: its name is that of the
schema, which is not empty, and an ending for the format. -/
inductive NamedFor : String → String → Format → Prop
  | json {name : String} : name ≠ "" →
      NamedFor (name ++ ".jtd.json") name .json
  | yaml {name : String} : name ≠ "" →
      NamedFor (name ++ ".jtd.yaml") name .yaml
  | yml {name : String} : name ≠ "" →
      NamedFor (name ++ ".jtd.yml") name .yaml

theorem stem?_eq_some_iff {ending file name : String} :
    stem? ending file = some name ↔ name ≠ "" ∧ file = name ++ ending := by
  have hempty (s : String) : s ≠ "" ↔ 0 < s.toList.length := by
    rw [List.length_pos_iff, ne_eq, ne_eq, String.toList_eq_nil_iff]
  rw [stem?, hempty, ← String.toList_inj, String.toList_append]
  constructor
  · intro h
    split at h
    next hcut =>
      obtain ⟨hpos, hending⟩ := hcut
      cases h
      rw [String.toList_ofList, ← hending, List.take_append_drop,
        List.length_take]
      exact ⟨by omega, rfl⟩
    next => cases h
  · rintro ⟨hpos, hfile⟩
    have hlength : file.toList.length - ending.length = name.toList.length := by
      rw [hfile, List.length_append, String.length_toList, String.length_toList,
        Nat.add_sub_cancel]
    rw [hlength, hfile, List.drop_left, List.take_left, String.ofList_toList,
      if_pos ⟨hpos, rfl⟩]

/-- Texts with different endings of one of these kinds are different. -/
theorem append_ne_of_ending {name name' ending ending' : String}
    (h : ending ∈ [".jtd.json", ".jtd.yaml", ".jtd.yml"])
    (h' : ending' ∈ [".jtd.json", ".jtd.yaml", ".jtd.yml"])
    (hne : ending ≠ ending') : name ++ ending ≠ name' ++ ending' := by
  intro heq
  have hreversed := congrArg (fun s => s.toList.reverse) heq
  simp only [List.mem_cons, List.not_mem_nil, or_false] at h h'
  rcases h with rfl | rfl | rfl <;> rcases h' with rfl | rfl | rfl <;>
    simp at hne hreversed

theorem classify?_eq_some_iff {file name : String} {format : Format} :
    classify? file = some (name, format) ↔ NamedFor file name format := by
  have hnone {ending ending' name : String}
      (h : ending ∈ [".jtd.json", ".jtd.yaml", ".jtd.yml"])
      (h' : ending' ∈ [".jtd.json", ".jtd.yaml", ".jtd.yml"])
      (hne : ending ≠ ending') : stem? ending (name ++ ending') = none := by
    rw [Option.eq_none_iff_forall_ne_some]
    intro name' hstem
    exact append_ne_of_ending h' h (Ne.symm hne) (stem?_eq_some_iff.mp hstem).2
  constructor
  · intro h
    unfold classify? at h
    split at h
    next hjson =>
      cases h
      obtain ⟨hname, rfl⟩ := stem?_eq_some_iff.mp hjson
      exact .json hname
    next =>
      obtain ⟨stem, hstem, heq⟩ := Option.map_eq_some_iff.mp h
      cases heq
      rcases Option.or_eq_some_iff.mp hstem with hyaml | ⟨-, hyml⟩
      · obtain ⟨hname, rfl⟩ := stem?_eq_some_iff.mp hyaml
        exact .yaml hname
      · obtain ⟨hname, rfl⟩ := stem?_eq_some_iff.mp hyml
        exact .yml hname
  · have hstem {ending : String} (hname : name ≠ "") :
        stem? ending (name ++ ending) = some name :=
      stem?_eq_some_iff.mpr ⟨hname, rfl⟩
    intro h
    unfold classify?
    cases h with
    | json hname => rw [hstem hname]
    | yaml hname =>
        rw [hnone (by simp) (by simp) (by simp), hstem hname]
        rfl
    | yml hname =>
        rw [hnone (by simp) (by simp) (by simp),
          hnone (by simp) (by simp) (by simp), hstem hname]
        rfl

theorem NamedFor.unique {file name name' : String} {format format' : Format}
    (h : NamedFor file name format) (h' : NamedFor file name' format') :
    name = name' ∧ format = format' := by
  rw [← classify?_eq_some_iff] at h h'
  rw [h] at h'
  exact Prod.mk.inj (Option.some.inj h')

/-- The entry has the name of a file that holds the schema of a name. -/
def Names (entry : String × Content) (name : String) : Prop :=
  ∃ format, NamedFor entry.1 name format

/-- The entry has the name of a file that holds a schema. -/
def IsSchema (entry : String × Content) : Prop :=
  ∃ name, Names entry name

/-- The test for such an entry that loading makes. -/
def isSchema (entry : String × Content) : Bool :=
  (classify? entry.1).isSome

theorem isSchema_iff {entry : String × Content} :
    isSchema entry = true ↔ IsSchema entry := by
  rw [isSchema, Option.isSome_iff_exists, Prod.exists]
  simp only [classify?_eq_some_iff]
  rfl

/-! ## Documents of files -/

/-- A text is a document of a format. -/
inductive Holds : Format → String → Value → Prop
  | json {text : String} {v : Value} :
      Value.read? nestingLimit text = some v → Holds .json text v
  | yaml {text : String} {y : Yaml.Value} {v : Value} :
      Yaml.Value.ofText? text = some y → y.toJson = .ok v → Holds .yaml text v

theorem readDocument_eq_ok_iff {file : String} {format : Format}
    {text : String} {v : Value} :
    readDocument file format text = .ok v ↔ Holds format text v := by
  unfold readDocument
  constructor
  · intro h
    split at h
    next =>
      split at h
      next hread =>
        cases h
        exact .json hread
      next => cases h
    next =>
      split at h
      next => cases h
      next hread =>
        split at h
        next hconverted =>
          cases h
          exact .yaml hread hconverted
        next => cases h
  · rintro (hread | ⟨hread, hconverted⟩)
    · simp only [hread]
    · simp only [hread, hconverted]

/-- The entry holds the document under its name. -/
def Supplies (entry : String × Content) (document : String × Value) : Prop :=
  ∃ format text, NamedFor entry.1 document.1 format ∧
    entry.2 = .text text ∧ Holds format text document.2

theorem loadEntries_cons_iff {entry : String × Content}
    {listed : List (String × Content)}
    {found documents : List (String × Value)} :
    loadEntries found (entry :: listed) = .ok documents ↔
      (¬ IsSchema entry ∧ loadEntries found listed = .ok documents) ∨
        ∃ document, Supplies entry document ∧
          document.1 ∉ found.map Prod.fst ∧
          loadEntries (found ++ [document]) listed = .ok documents := by
  obtain ⟨file, content⟩ := entry
  have hpassed : ¬ IsSchema (file, content) ↔ classify? file = none := by
    rw [← isSchema_iff]
    exact Option.not_isSome_iff_eq_none
  constructor
  · intro h
    rcases loadEntries_cons h with ⟨hnone, hrest⟩ |
      ⟨name, format, text, v, hnamed, rfl, hread, hnew, hrest⟩
    · exact Or.inl ⟨hpassed.mpr hnone, hrest⟩
    · exact Or.inr ⟨(name, v), ⟨format, text, classify?_eq_some_iff.mp hnamed,
        rfl, readDocument_eq_ok_iff.mp hread⟩, hnew, hrest⟩
  · rintro (⟨hnot, hrest⟩ |
      ⟨⟨name, v⟩, ⟨format, text, hnamed, rfl, hholds⟩, hnew, hrest⟩)
    · rw [loadEntries, hpassed.mp hnot]
      exact hrest
    · have hfree : (found.any fun d => d.1 = name) = false := by
        rw [List.any_eq_false]
        intro d hd
        rw [decide_eq_true_eq]
        exact fun heq => hnew (List.mem_map.mpr ⟨d, hd, heq⟩)
      rw [loadEntries, classify?_eq_some_iff.mpr hnamed]
      dsimp only
      rw [readDocument_eq_ok_iff.mpr hholds]
      simp only [bind, Except.bind, hfree, Bool.false_eq_true, if_false]
      exact hrest

theorem Supplies.unique {entry : String × Content}
    {document document' : String × Value} (h : Supplies entry document)
    (h' : Supplies entry document') : document = document' := by
  obtain ⟨format, text, hnamed, htext, hholds⟩ := h
  obtain ⟨format', text', hnamed', htext', hholds'⟩ := h'
  obtain ⟨hname, rfl⟩ := hnamed.unique hnamed'
  rw [htext] at htext'
  cases htext'
  have hread : readDocument entry.1 format text = .ok document.2 :=
    readDocument_eq_ok_iff.mpr hholds
  rw [readDocument_eq_ok_iff.mpr hholds'] at hread
  exact Prod.ext hname (Except.ok.inj hread).symm

theorem Supplies.names_iff {entry : String × Content}
    {document : String × Value} (h : Supplies entry document) {name : String} :
    Names entry name ↔ name = document.1 := by
  obtain ⟨format, -, hnamed, -⟩ := h
  constructor
  · rintro ⟨format', hnamed'⟩
    exact (hnamed'.unique hnamed).1
  · rintro rfl
    exact ⟨format, hnamed⟩

theorem Supplies.isSchema {entry : String × Content}
    {document : String × Value} (h : Supplies entry document) :
    IsSchema entry :=
  ⟨document.1, h.names_iff.mpr rfl⟩

/-- What is loaded behind other documents are the documents of the entries, one
for each that is named for a schema, where all names differ. -/
theorem loadEntries_eq_ok_iff {listed : List (String × Content)}
    {found documents : List (String × Value)}
    (hfound : (found.map Prod.fst).Nodup) :
    loadEntries found listed = .ok documents ↔
      ∃ new, List.Forall₂ Supplies
          (listed.filter isSchema) new ∧
        documents = found ++ new ∧ (documents.map Prod.fst).Nodup := by
  induction listed generalizing found with
  | nil =>
      rw [loadEntries, Except.ok.injEq]
      constructor
      · rintro rfl
        exact ⟨[], .nil, (List.append_nil _).symm, hfound⟩
      · rintro ⟨new, hnew, rfl, -⟩
        cases hnew
        exact (List.append_nil _).symm
  | cons entry listed ih =>
      rw [loadEntries_cons_iff]
      by_cases hschema : IsSchema entry
      · rw [List.filter_cons_of_pos (isSchema_iff.mpr hschema)]
        constructor
        · rintro (⟨hnot, -⟩ | ⟨document, hsupplies, hnew, hrest⟩)
          · exact absurd hschema hnot
          · obtain ⟨new, hforall, rfl, hdocuments⟩ :=
              (ih (nodup_append_new hfound hnew)).mp hrest
            exact ⟨document :: new, .cons hsupplies hforall,
              List.append_assoc _ _ _, hdocuments⟩
        · rintro ⟨new, hforall, rfl, hdocuments⟩
          cases hforall with
          | @cons _ document _ new hsupplies hforall =>
              have hsplit : found ++ document :: new =
                  (found ++ [document]) ++ new := by simp
              have hnew : document.1 ∉ found.map Prod.fst := by
                intro hmem
                rw [List.map_append, List.nodup_append] at hdocuments
                exact hdocuments.2.2 _ hmem _ List.mem_cons_self rfl
              refine Or.inr ⟨document, hsupplies, hnew, ?_⟩
              exact (ih (nodup_append_new hfound hnew)).mpr
                ⟨new, hforall, hsplit, hdocuments⟩
      · rw [List.filter_cons_of_neg (mt isSchema_iff.mp hschema), ← ih hfound]
        constructor
        · rintro (⟨-, hrest⟩ | ⟨document, hsupplies, -⟩)
          · exact hrest
          · exact absurd hsupplies.isSchema hschema
        · exact fun hrest => Or.inl ⟨hschema, hrest⟩

/-! ## Whole directories -/

/-- A directory is loaded exactly when its entries supply documents of different
names, which it then holds sorted by name. -/
theorem load_eq_ok_iff {listed : List (String × Content)}
    {directory : Directory} :
    load (some listed) = .ok directory ↔
      ∃ documents, List.Forall₂ Supplies (listed.filter isSchema) documents ∧
        (documents.map Prod.fst).Nodup ∧
        directory = ⟨documents.mergeSort fun a b => a.1 ≤ b.1⟩ := by
  have hlisted (documents : List (String × Value)) :=
    @loadEntries_eq_ok_iff listed [] documents List.nodup_nil
  rw [load]
  constructor
  · intro h
    cases hdocuments : loadEntries [] listed with
    | error e =>
        rw [hdocuments] at h
        cases h
    | ok documents =>
        rw [hdocuments] at h
        cases h
        obtain ⟨new, hforall, heq, hnodup⟩ := (hlisted documents).mp hdocuments
        exact ⟨documents, heq ▸ hforall, hnodup, rfl⟩
  · rintro ⟨documents, hforall, hnodup, rfl⟩
    rw [(hlisted documents).mpr ⟨documents, hforall, rfl, hnodup⟩]
    rfl

/-- Sorting by name forgets the order of documents whose names differ. -/
theorem mergeSort_eq_of_perm {documents documents' : List (String × Value)}
    (hnodup : (documents.map Prod.fst).Nodup)
    (hperm : documents.Perm documents') :
    (documents.mergeSort fun a b => a.1 ≤ b.1) =
      documents'.mergeSort fun a b => a.1 ≤ b.1 := by
  have hnodup' := (hperm.map Prod.fst).nodup_iff.mp hnodup
  have hsorted := pairwise_mergeSort_names hnodup
  have hsorted' := pairwise_mergeSort_names hnodup'
  rw [List.pairwise_map] at hsorted hsorted'
  refine List.Perm.eq_of_pairwise (fun a b _ _ hab hba => ?_) hsorted hsorted'
    (((List.mergeSort_perm _ _).trans hperm).trans
      (List.mergeSort_perm _ _).symm)
  exact absurd hba (String.lt_asymm hab)

/-- The entries of a listing, in another order, load the same directory. -/
theorem load_eq_ok_of_perm {listed listed' : List (String × Content)}
    (hperm : listed.Perm listed') {directory : Directory}
    (h : load (some listed) = .ok directory) :
    load (some listed') = .ok directory := by
  obtain ⟨documents, hforall, hnodup, rfl⟩ := load_eq_ok_iff.mp h
  obtain ⟨documents', hforall', hperm'⟩ :=
    List.perm_comp_forall₂ (hperm.filter isSchema).symm hforall
  rw [mergeSort_eq_of_perm hnodup hperm'.symm]
  exact load_eq_ok_iff.mpr ⟨documents', hforall',
    (hperm'.map Prod.fst).nodup_iff.mpr hnodup, rfl⟩

/-- What is said of any two entries is said of any two that belong to them. -/
theorem pairwise_iff_of_forall₂ {α β : Type} {rel : α → β → Prop}
    {r : α → α → Prop} {s : β → β → Prop}
    (hiff : ∀ a b a' b', rel a b → rel a' b' → (r a a' ↔ s b b'))
    {as : List α} {bs : List β} (h : List.Forall₂ rel as bs) :
    as.Pairwise r ↔ bs.Pairwise s := by
  induction h with
  | nil => exact ⟨fun _ => .nil, fun _ => .nil⟩
  | @cons a b as bs hab hforall ih =>
      have hhead : (∀ a' ∈ as, r a a') ↔ ∀ b' ∈ bs, s b b' := by
        constructor
        · intro hr b' hb'
          obtain ⟨a', ha', hrel⟩ := exists_mem_of_forall₂ hforall hb'
          exact (hiff a b a' b' hab hrel).mp (hr a' ha')
        · intro hs a' ha'
          obtain ⟨b', hb', hrel⟩ := exists_mem_of_forall₂ hforall.flip ha'
          exact (hiff a b a' b' hab hrel).mpr (hs b' hb')
      rw [List.pairwise_cons, List.pairwise_cons, hhead, ih]

/-- Two entries that no name of a schema has in common. -/
def Apart (entry entry' : String × Content) : Prop :=
  ∀ name, Names entry name → ¬ Names entry' name

theorem nodup_iff_pairwise_apart {listed : List (String × Content)}
    {documents : List (String × Value)}
    (h : List.Forall₂ Supplies (listed.filter isSchema) documents) :
    (documents.map Prod.fst).Nodup ↔ listed.Pairwise Apart := by
  have hapart (entry : String × Content) (document : String × Value)
      (entry' : String × Content) (document' : String × Value)
      (hentry : Supplies entry document) (hentry' : Supplies entry' document') :
      Apart entry entry' ↔ document.1 ≠ document'.1 := by
    simp only [Apart, hentry.names_iff, hentry'.names_iff, forall_eq]
  rw [List.Nodup, List.pairwise_map, ← pairwise_iff_of_forall₂ hapart h,
    List.pairwise_filter]
  constructor
  · intro hpairwise
    refine hpairwise.imp fun hfilter name hname hname' => ?_
    exact hfilter (isSchema_iff.mpr ⟨name, hname⟩)
      (isSchema_iff.mpr ⟨name, hname'⟩) name hname hname'
  · exact fun hpairwise => hpairwise.imp fun hapart _ _ => hapart

theorem exists_load_iff {listed : List (String × Content)} :
    (∃ directory, load (some listed) = .ok directory) ↔
      (∀ entry ∈ listed, IsSchema entry →
        ∃ document, Supplies entry document) ∧
      listed.Pairwise Apart := by
  constructor
  · rintro ⟨directory, h⟩
    obtain ⟨documents, hforall, hnodup, -⟩ := load_eq_ok_iff.mp h
    refine ⟨fun entry hentry hschema => ?_,
      (nodup_iff_pairwise_apart hforall).mp hnodup⟩
    have hmem := List.mem_filter.mpr ⟨hentry, isSchema_iff.mpr hschema⟩
    obtain ⟨document, -, hsupplies⟩ := exists_mem_of_forall₂ hforall.flip hmem
    exact ⟨document, hsupplies⟩
  · rintro ⟨hsupplied, hpairwise⟩
    have hfiltered : ∀ entry ∈ listed.filter isSchema,
        ∃ document, Supplies entry document := by
      intro entry hentry
      obtain ⟨hmem, hschema⟩ := List.mem_filter.mp hentry
      exact hsupplied entry hmem (isSchema_iff.mp hschema)
    obtain ⟨documents, hforall⟩ := exists_forall₂ hfiltered
    exact ⟨_, load_eq_ok_iff.mpr ⟨documents, hforall,
      (nodup_iff_pairwise_apart hforall).mpr hpairwise, rfl⟩⟩

theorem mem_documents_iff {listed : List (String × Content)}
    {directory : Directory} (h : load (some listed) = .ok directory)
    {document : String × Value} :
    document ∈ directory.documents ↔
      ∃ entry ∈ listed, Supplies entry document := by
  obtain ⟨documents, hforall, -, rfl⟩ := load_eq_ok_iff.mp h
  rw [List.mem_mergeSort]
  constructor
  · intro hdocument
    obtain ⟨entry, hentry, hsupplies⟩ := exists_mem_of_forall₂ hforall hdocument
    exact ⟨entry, (List.mem_filter.mp hentry).1, hsupplies⟩
  · rintro ⟨entry, hentry, hsupplies⟩
    have hmem := List.mem_filter.mpr
      ⟨hentry, isSchema_iff.mpr hsupplies.isSchema⟩
    obtain ⟨document', hdocument', hsupplies'⟩ :=
      exists_mem_of_forall₂ hforall.flip hmem
    rwa [hsupplies.unique hsupplies']

/-- Entries without the name of a schema make no difference, not even to the
reason why a directory is refused. -/
theorem loadEntries_filter (found : List (String × Value))
    (listed : List (String × Content)) :
    loadEntries found (listed.filter isSchema) = loadEntries found listed := by
  induction listed generalizing found with
  | nil => rfl
  | cons entry listed ih =>
      by_cases hschema : isSchema entry = true
      · simp only [List.filter_cons_of_pos hschema, loadEntries, ih]
      · have hnone : classify? entry.1 = none :=
          Option.not_isSome_iff_eq_none.mp hschema
        rw [List.filter_cons_of_neg hschema, ih, loadEntries, hnone]

/-- Whether a directory is loaded, and what it then holds, does not depend on
the order in which its entries are listed.  It is loaded exactly when every entry
that is named for a schema supplies a document, and no two of them are named for
the same one.  It then holds these documents, in the order of the bytes of their
names.  Other entries make no difference. -/
theorem load_orderless {listed listed' : List (String × Content)}
    (hperm : listed.Perm listed') :
    (∀ directory, load (some listed) = .ok directory ↔
      load (some listed') = .ok directory) ∧
    ((∃ directory, load (some listed) = .ok directory) ↔
      (∀ entry ∈ listed, IsSchema entry →
        ∃ document, Supplies entry document) ∧
      listed.Pairwise Apart) ∧
    (∀ directory, load (some listed) = .ok directory →
      (directory.names.Pairwise fun a b => Text.bytes a < Text.bytes b) ∧
      ∀ document, document ∈ directory.documents ↔
        ∃ entry ∈ listed, Supplies entry document) ∧
    ∀ before entry after, ¬ IsSchema entry →
      load (some (before ++ entry :: after)) =
        load (some (before ++ after)) := by
  refine ⟨fun directory => ?_, exists_load_iff, fun directory h => ?_,
    fun before entry after hnot => ?_⟩
  · exact ⟨load_eq_ok_of_perm hperm, load_eq_ok_of_perm hperm.symm⟩
  · exact ⟨(sorted_of_load h).imp Text.bytes_lt_of_lt,
      fun document => mem_documents_iff h⟩
  · have hfilter : (before ++ entry :: after).filter isSchema =
        (before ++ after).filter isSchema := by
      rw [List.filter_append, List.filter_append,
        List.filter_cons_of_neg (mt isSchema_iff.mp hnot)]
    rw [load, load, ← loadEntries_filter, hfilter, loadEntries_filter]

/-- The entries of a directory: two schemas, the name of one of which holds an
ending inside, and a file that cannot be read. -/
def nestedEndings : List (String × Content) :=
  [("a.jtd.yml.jtd.json", .text "[]"), ("notes.json", .unreadable),
    ("b.jtd.yml", .text "[]")]

theorem load_orderless_nestedEndings :
    nestedEndings.Perm nestedEndings.reverse ∧
    load (some nestedEndings.reverse) =
      .ok ⟨[("a.jtd.yml", .arr []), ("b", .arr [])]⟩ := by
  have hperm : nestedEndings.Perm nestedEndings.reverse :=
    (List.reverse_perm _).symm
  refine ⟨hperm, ((load_orderless hperm).1 _).mp ?_⟩
  have hlisted : loadEntries [] nestedEndings =
      .ok [("a.jtd.yml", .arr []), ("b", .arr [])] := by
    with_unfolding_all rfl
  rw [load, hlisted, Except.map, List.mergeSort_of_pairwise (by decide +kernel)]

end Directory
end JsonTypedef
