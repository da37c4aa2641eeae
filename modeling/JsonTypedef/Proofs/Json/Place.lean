import JsonTypedef.Pointer
import JsonTypedef.Proofs.Json.Distinct

/-!
# Places in values

`Value.at?` goes down from a value along the segments of a pointer.  A member
name leads into an object and a decimal index into an array.
-/

namespace JsonTypedef

/-- A natural number is known by its decimal text. -/
theorem toString_inj {i j : ℕ} : toString i = toString j ↔ i = j := by
  constructor
  · intro h
    have hdigits : Nat.toDigits 10 i = Nat.toDigits 10 j := by
      simpa using congrArg String.toList h
    simpa using congrArg (fun digits => Nat.ofDigitChars 10 digits 0) hdigits
  · intro h
    rw [h]

namespace Pointer

@[simp] theorem extend_nil (p : Pointer) : p.extend [] = p := by
  simp [extend]

@[simp] theorem extend_extend (p : Pointer) (first second : List String) :
    (p.extend first).extend second = p.extend (first ++ second) := by
  simp [extend]

@[simp] theorem segments_child (p : Pointer) (segment : String) :
    (p.child segment).segments = p.segments ++ [segment] := rfl

@[simp] theorem segments_root : root.segments = [] := rfl

theorem child_eq_extend (p : Pointer) (segment : String) :
    p.child segment = p.extend [segment] := rfl

/-- The path `q` is `p` or leads further down from it. -/
def Covers (p q : Pointer) : Prop :=
  p.segments <+: q.segments

instance (p q : Pointer) : Decidable (p.Covers q) :=
  inferInstanceAs (Decidable (p.segments <+: q.segments))

theorem covers_refl (p : Pointer) : p.Covers p :=
  List.prefix_refl _

theorem covers_extend (p : Pointer) (segments : List String) :
    p.Covers (p.extend segments) :=
  List.prefix_append _ _

theorem Covers.trans {p q r : Pointer} (hpq : p.Covers q) (hqr : q.Covers r) :
    p.Covers r :=
  List.IsPrefix.trans hpq hqr

theorem not_child_covers (p : Pointer) (segment : String) :
    ¬ (p.child segment).Covers p := by
  intro h
  have hlength := List.IsPrefix.length_le h
  simp only [segments_child, List.length_append, List.length_singleton] at hlength
  omega

/-- Paths that cover a common one go on by the same segment. -/
theorem Covers.segment_eq {p q : Pointer} {first second : String}
    (h : (p.child first).Covers q) (h' : (p.child second).Covers q) :
    first = second := by
  have hlength :
      (p.child first).segments.length = (p.child second).segments.length := by
    simp
  have heq := List.IsPrefix.eq_of_length
    (List.prefix_of_prefix_length_le h h' (Nat.le_of_eq hlength)) hlength
  simpa using heq

end Pointer

namespace Value

/-- The part of a value that a segment leads to. -/
def child? : Value → String → Option Value
  | .arr items, segment =>
    (items.zipIdx.find? fun m => toString m.2 = segment).map Prod.fst
  | .obj ms, segment => Members.get? ms segment
  | _, _ => none

/-- The value at a path. -/
def at? : Value → List String → Option Value
  | v, [] => some v
  | v, segment :: rest => (v.child? segment).bind fun w => w.at? rest

/-- Some value stands at the path. -/
def Has (v : Value) (p : Pointer) : Prop :=
  ∃ w, v.at? p.segments = some w

theorem child?_arr (items : List Value) (i : ℕ) :
    (Value.arr items).child? (toString i) = items[i]? := by
  rw [child?]
  cases hfind : items.zipIdx.find? fun m => toString m.2 = toString i with
  | none =>
      rw [Option.map_none, eq_comm, ← Option.not_isSome_iff_eq_none,
        Option.isSome_iff_exists]
      rintro ⟨v, hv⟩
      have hmem : (v, i) ∈ items.zipIdx := List.mk_mem_zipIdx_iff_getElem?.mpr hv
      exact List.find?_eq_none.mp hfind _ hmem (decide_eq_true rfl)
  | some m =>
      obtain ⟨v, j⟩ := m
      have hj : j = i := toString_inj.mp (by simpa using List.find?_some hfind)
      have hmem := List.mem_of_find?_eq_some hfind
      rw [hj] at hmem
      exact (List.mk_mem_zipIdx_iff_getElem?.mp hmem).symm

@[simp] theorem child?_obj (ms : Members) (key : String) :
    (Value.obj ms).child? key = ms.get? key := rfl

@[simp] theorem at?_nil (v : Value) : v.at? [] = some v := by
  rw [at?]

@[simp] theorem at?_cons (v : Value) (segment : String) (rest : List String) :
    v.at? (segment :: rest) = (v.child? segment).bind fun w => w.at? rest := by
  rw [at?]

/-- A path in two parts is gone down part by part. -/
theorem at?_append (v : Value) (first second : List String) :
    v.at? (first ++ second) = (v.at? first).bind fun w => w.at? second := by
  induction first generalizing v with
  | nil => simp
  | cons segment first ih => simp [ih, Option.bind_assoc]

theorem at?_item (items : List Value) (i : ℕ) :
    (Value.arr items).at? [toString i] = items[i]? := by
  rw [at?_cons, child?_arr]
  cases items[i]? with
  | none => rfl
  | some v => exact at?_nil v

theorem at?_member (ms : Members) (key : String) :
    (Value.obj ms).at? [key] = ms.get? key := by
  simp

/-- What stands at a path of an object stands below that path. -/
theorem at?_child {v : Value} {p : Pointer} {ms : Members}
    (h : v.at? p.segments = some (.obj ms)) (key : String) :
    v.at? (p.child key).segments = ms.get? key := by
  rw [Pointer.segments_child, at?_append, h]
  simp

@[simp] theorem at?_root (v : Value) : v.at? Pointer.root.segments = some v :=
  at?_nil v

theorem has_child {v : Value} {p : Pointer} {ms : Members}
    (h : v.at? p.segments = some (.obj ms)) {key : String}
    (hkey : key ∈ ms.keys) : v.Has (p.child key) := by
  rw [Has, at?_child h]
  exact Option.isSome_iff_exists.mp (Members.get?_isSome_iff.mpr hkey)

theorem Distinct.of_child? {v w : Value} (hv : v.Distinct) {segment : String}
    (h : v.child? segment = some w) : w.Distinct := by
  cases hv with
  | arr hitems =>
      obtain ⟨m, hm, rfl⟩ := Option.map_eq_some_iff.mp h
      exact hitems _ (List.fst_mem_of_mem_zipIdx (List.mem_of_find?_eq_some hm))
  | obj _ hmembers => exact hmembers _ (Members.mem_of_get? h)
  | _ => cases h

/-- No part of a value names a member twice if the value does not. -/
theorem Distinct.of_at? {v w : Value} (hv : v.Distinct) {path : List String}
    (h : v.at? path = some w) : w.Distinct := by
  induction path generalizing v with
  | nil =>
      rw [at?_nil] at h
      cases h
      exact hv
  | cons segment path ih =>
      rw [at?_cons] at h
      obtain ⟨u, hu, h⟩ := Option.bind_eq_some_iff.mp h
      exact ih (hv.of_child? hu) h

/-- Every member of an object is found below the object's path. -/
theorem Distinct.at?_member {v : Value} (hv : v.Distinct) {p : Pointer}
    {ms : Members} (h : v.at? p.segments = some (.obj ms)) {m : String × Value}
    (hm : m ∈ ms) : v.at? (p.child m.1).segments = some m.2 := by
  rw [at?_child h]
  cases hv.of_at? h with
  | obj hnodup _ => exact Members.get?_of_mem hnodup hm

/-! ## Values that differ at a place -/

/-- The second value is the first one with another value at the path. -/
inductive DiffersAt : List String → Value → Value → Prop
  | here {v w : Value} : DiffersAt [] v w
  | item {path : List String} {front behind : List Value} {v w : Value} :
      DiffersAt path v w →
        DiffersAt (toString front.length :: path) (.arr (front ++ v :: behind))
          (.arr (front ++ w :: behind))
  | member {path : List String} {front behind : Members} {key : String}
      {v w : Value} :
      DiffersAt path v w →
        DiffersAt (key :: path) (.obj (front ++ (key, v) :: behind))
          (.obj (front ++ (key, w) :: behind))

end Value

/-- A look-up by name finds the same unless it finds the exchanged value. -/
theorem Members.get?_exchange (front behind : Members) (key name : String)
    (v w : Value) :
    get? (front ++ (key, v) :: behind) name =
        get? (front ++ (key, w) :: behind) name ∨
      (name = key ∧ get? (front ++ (key, v) :: behind) name = some v ∧
        get? (front ++ (key, w) :: behind) name = some w) := by
  induction front with
  | nil =>
      simp only [List.nil_append, get?_cons]
      by_cases hname : key = name
      · exact Or.inr ⟨hname.symm, if_pos hname, if_pos hname⟩
      · exact Or.inl (by rw [if_neg hname, if_neg hname])
  | cons m front ih =>
      obtain ⟨first, u⟩ := m
      simp only [List.cons_append, get?_cons]
      by_cases hname : first = name
      · exact Or.inl (by rw [if_pos hname, if_pos hname])
      · simp only [if_neg hname]
        exact ih

end JsonTypedef
