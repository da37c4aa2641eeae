import JsonTypedef.Directory
import JsonTypedef.Proofs.Except
import JsonTypedef.Proofs.Json.Distinct

/-!
# Loading a directory

Loading reads the entries of a directory one after the other and stops at the
first that is refused.  The documents that it gives have different names, in
strict order.
-/

namespace JsonTypedef
namespace Directory

/-- An entry of a directory that can be loaded is passed over, or it holds a
document under a name that is new. -/
theorem loadEntries_cons {found documents : List (String × Value)}
    {file : String} {content : Content} {rest : List (String × Content)}
    (h : loadEntries found ((file, content) :: rest) = .ok documents) :
    (classify? file = none ∧ loadEntries found rest = .ok documents) ∨
      ∃ name format text document, classify? file = some (name, format) ∧
        content = .text text ∧ readDocument file format text = .ok document ∧
        name ∉ found.map Prod.fst ∧
        loadEntries (found ++ [(name, document)]) rest = .ok documents := by
  rw [loadEntries] at h
  split at h
  next hpassed => exact Or.inl ⟨hpassed, h⟩
  next name format hnamed =>
    cases content with
    | unreadable => cases h
    | text text =>
        right
        obtain ⟨document, hread, h⟩ := exists_ok_of_bind h
        split at h
        next => cases h
        next hnew =>
          refine ⟨name, format, text, document, hnamed, rfl, hread, ?_, h⟩
          simpa using hnew

/-- A document of a new name leaves all names different. -/
theorem nodup_append_new {found : List (String × Value)}
    {document : String × Value} (hfound : (found.map Prod.fst).Nodup)
    (hnew : document.1 ∉ found.map Prod.fst) :
    ((found ++ [document]).map Prod.fst).Nodup := by
  rw [List.map_append, List.perm_append_comm.nodup_iff]
  exact List.nodup_cons.mpr ⟨hnew, hfound⟩

theorem nodup_of_loadEntries {listed : List (String × Content)} :
    ∀ {found documents : List (String × Value)}, (found.map Prod.fst).Nodup →
      loadEntries found listed = .ok documents →
        (documents.map Prod.fst).Nodup := by
  induction listed with
  | nil =>
      intro found documents hfound h
      rw [loadEntries, Except.ok.injEq] at h
      rw [← h]
      exact hfound
  | cons entry listed ih =>
      intro found documents hfound h
      rcases loadEntries_cons h with
        ⟨-, hrest⟩ | ⟨name, format, text, document, -, -, -, hnew, hrest⟩
      · exact ih hfound hrest
      · exact ih (nodup_append_new hfound hnew) hrest

/-- The names of a directory stand in strict order. -/
theorem sorted_of_load {entries : Option (List (String × Content))}
    {directory : Directory} (h : load entries = .ok directory) :
    directory.names.Pairwise (· < ·) := by
  cases entries with
  | none => cases h
  | some listed =>
      rw [load] at h
      cases hlisted : loadEntries [] listed with
      | error e =>
          rw [hlisted] at h
          cases h
      | ok documents =>
          rw [hlisted] at h
          cases h
          exact pairwise_mergeSort_names
            (nodup_of_loadEntries (by simp) hlisted)

end Directory
end JsonTypedef
