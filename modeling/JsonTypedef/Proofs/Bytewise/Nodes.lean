import JsonTypedef.Proofs.Bytewise.Lookahead
import JsonTypedef.Proofs.Program.Bounds

/-!
# Nodes byte by byte

Along a node the reader of bytes looks up members, branches and the targets of
refs at their places.  In the program of a checked document the places are those
of the entries that the scanner finds by name, and no look-up panics.
-/

namespace JsonTypedef
namespace Bytewise

open Parsing Program

variable {text : String}

/-! ## Values of one token -/

theorem primitive_eq (config : Config) (kind : TypeKind) (c : Cursor) :
    Parsing.primitive config kind c =
      scanScalar false (.primitive kind) c >>= typed config kind := by
  obtain ⟨pos, stream⟩ := c
  unfold Parsing.primitive scanScalar
  cases stream with
  | finish => rfl
  | stuck => rfl
  | token start t stop rest => cases t <;> rfl

theorem primitive_implements (config : Config) (kind : TypeKind) :
    ImplementsFront text (primitive text config kind)
      (Parsing.primitive config kind) := by
  intro s hfront hs
  have hscalar := scalar_agrees (hfront.symm ▸ hs) false (.primitive kind)
  rw [hfront] at hscalar
  rw [primitive_eq]
  refine .get (hscalar.bind ?_)
  rintro ⟨v, _, h⟩ s' rfl hs'
  unfold typed
  dsimp only
  by_cases haccepts : Validator.typeAccepts config kind v = true
  · rw [if_pos haccepts, if_pos haccepts]
    exact .ok (.pure hs' v) rfl
  · rw [if_neg haccepts, if_neg haccepts, Cursor.ofSource, Stream.start_ofSource, hfront]
    exact .error (.throw hs.boundary _)

theorem enumValue_eq (values : List String) (c : Cursor) :
    Parsing.enumValue values c = scanString .enumString c >>= fun t =>
      if t.value ∈ values then .ok (t.map .str)
      else .error ⟨.unknownEnumValue t.value, c.stream.start⟩ := by
  unfold Parsing.enumValue
  split
  next htake =>
    rw [scanString_of_str htake]
    rfl
  next hother =>
    rw [scanString_of_other hother]
    rfl

theorem enumValue_implements (values : List String) :
    ImplementsFront text (enumValue text values)
      (Parsing.enumValue values) := by
  intro s hfront hs
  have hstring := stringAs_agrees (hfront.symm ▸ hs) .enumString
  rw [hfront] at hstring
  rw [enumValue_eq]
  refine .get (hstring.bind ?_)
  rintro ⟨v, _, h⟩ s' rfl hs'
  dsimp only
  by_cases hmem : v ∈ values
  · rw [if_pos hmem, if_pos hmem]
    exact .ok (.pure hs' _) rfl
  · rw [if_neg hmem, if_neg hmem, Cursor.ofSource, Stream.start_ofSource, hfront]
    exact .error (.throw hs.boundary _)

theorem tagString_eq (c : Cursor) :
    Parsing.tagString c = (scanString .string c).map (Taken.map .str) := by
  unfold Parsing.tagString
  split
  next htake =>
    rw [scanString_of_str htake]
    rfl
  next hother =>
    rw [scanString_of_other hother]
    rfl

/-! ## Objects -/

section

variable {node : Node → Reader Value} {scan : Node → Scanner Failure Value}
    {other : Reader Value} {scanOther : Scanner Failure Value}
    {p : Program.Properties}

/-- Members are found at the places that the index names. -/
theorem memberValue_implements (hp : p.Indexed)
    (hnode : ∀ m ∈ p.declared, Implements text (node m.2) (scan m.2))
    (hother : Implements text other scanOther) (tag : Option String)
    (name : String) (start : Nat) (hstart : Boundary text start) :
    Implements text (memberValue text node other p tag name start)
      (Parsing.memberValue scan scanOther p tag name start) := by
  intro s hs
  unfold memberValue Parsing.memberValue
  by_cases htag : tag = some name
  · rw [if_pos htag, if_pos htag, tagString_eq]
    refine .behind (skipBlanks_gives hs) ?_
    exact (string_agrees hs.front).map fun _ => ⟨rfl, rfl⟩
  rw [if_neg htag, if_neg htag]
  cases hslot : p.index[name]? with
  | some slot =>
      obtain ⟨n, hn, hmember⟩ := hp.member name slot hslot
      rw [hmember]
      refine .lift hn ?_
      exact hnode (name, n) (Properties.mem_of_inSlot? hn) s hs
  | none =>
      have hmem : name ∉ p.index := by
        rw [← Std.HashMap.isSome_getElem?_iff_mem, hslot]
        simp
      have hundeclared : p.member? name = none := by
        rw [← Option.not_isSome_iff_eq_none, Properties.member?_isSome_iff,
          ← Properties.declares_iff, ← hp.mem_iff]
        exact hmem
      rw [hundeclared]
      dsimp only
      by_cases hadditional : p.additional = true
      · rw [if_pos hadditional, if_pos hadditional]
        exact hother s hs
      · rw [if_neg hadditional, if_neg hadditional]
        exact .error (.throw hstart s)

theorem properties_eq (p : Program.Properties) (tag : Option String)
    (c : Cursor) :
    Parsing.properties scan scanOther p tag c =
      Parsing.members (Parsing.memberValue scan scanOther p tag) c >>= fun t =>
        match p.required.find? fun m => !t.value.has m.1 with
        | some m => .error ⟨.missingProperty m.1, t.rest.pos - 1⟩
        | none => .ok (t.map .obj) := by
  unfold Parsing.properties
  cases Parsing.members (Parsing.memberValue scan scanOther p tag) c with
  | error e => rfl
  | ok t => rfl

theorem properties_implements (hp : p.Indexed)
    (hnode : ∀ m ∈ p.declared, Implements text (node m.2) (scan m.2))
    (hother : Implements text other scanOther) (tag : Option String) :
    Implements text (properties text node other p tag)
      (Parsing.properties scan scanOther p tag) := by
  intro s hs
  have hmembers := members_closes (memberValue_implements hp hnode hother tag) hs
  rw [properties_eq]
  unfold properties
  cases hscan : Parsing.members (Parsing.memberValue scan scanOther p tag)
      (.ofSource s) with
  | error e =>
      rw [hscan] at hmembers
      cases hmembers with
      | error hgives => exact .error hgives.bind_error
  | ok t =>
      rw [hscan] at hmembers
      cases hmembers with
      | ok hgives hrest hclose =>
          refine .behind hgives ?_
          dsimp only [bind, Except.bind]
          cases p.required.find? fun m => !t.value.has m.1 with
          | some m => exact .error (.throw hclose _)
          | none => exact .ok (.pure hgives.place _) hrest

theorem mem_of_getElem?_ofList {α : Type} {l : List (String × α)} {key : String}
    {a : α} (h : (Std.HashMap.ofList l)[key]? = some a) : (key, a) ∈ l := by
  rw [Std.HashMap.ofList_eq_insertMany_empty, Std.HashMap.getElem?_insertMany_list,
    Std.HashMap.getElem?_empty, Option.or_none,
    List.findSomeRev?_eq_findSome?_reverse] at h
  obtain ⟨⟨name, b⟩, hmem, hfound⟩ := List.exists_of_findSome?_eq_some h
  rw [List.mem_reverse] at hmem
  dsimp only at hfound
  split at hfound
  next hname =>
    cases hfound
    obtain rfl := eq_of_beq hname
    exact hmem
  next => cases hfound

/-- The index of branches leads to the branch that is found by name, or nowhere
where there is none. -/
inductive Branches (branches : List (String × Program.Branch)) (value : String) :
    Prop
  | none : (branchIndex branches)[value]? = none →
      List.lookup value branches = none → Branches branches value
  | some {i : Nat} {branch : Program.Branch} :
      (branchIndex branches)[value]? = some i →
        branches[i]? = some (value, branch) →
          List.lookup value branches = some branch → Branches branches value

theorem branches_of_search {branches : List (String × Program.Branch)}
    {value : String}
    (h : indexedBranch? branches value =
      (List.lookup value branches).map (value, ·)) : Branches branches value := by
  unfold indexedBranch? at h
  cases hindex : (branchIndex branches)[value]? with
  | none => exact .none hindex (by simpa [hindex] using h.symm)
  | some i =>
      obtain ⟨branch, hbranch⟩ :=
        getElem?_of_mem_places (mem_of_getElem?_ofList hindex)
      exact .some hindex hbranch (by simpa [hindex, hbranch] using h.symm)

theorem discriminator_implements {tag : String}
    {branches : List (String × Program.Branch)}
    (hsearch : ∀ value, indexedBranch? branches value =
      (List.lookup value branches).map (value, ·))
    (hindexed : ∀ b ∈ branches, b.2.properties.Indexed)
    (hnode : ∀ b ∈ branches, ∀ m ∈ b.2.properties.declared,
      Implements text (node m.2) (scan m.2))
    (hother : Implements text other scanOther) :
    ImplementsFront text (discriminator text node other tag branches)
      (Parsing.discriminator scan scanOther tag branches) := by
  intro s hfront hs
  unfold discriminator Parsing.discriminator
  obtain ⟨next, hshows, hpeek⟩ := exists_peek hs
  have hbrace : next = some '\x7b' ↔ s.chars.head? = some '\x7b' :=
    hshows.eq_some_iff (by decide)
  refine .behind hpeek ?_
  by_cases hhead : s.chars.head? = some '\x7b'
  · obtain ⟨rest, hchars⟩ := List.head?_eq_some_iff.mp hhead
    have hopen : Gives text (expect text '\x7b' .object) s _ :=
      expect_found hs hchars (by decide)
    have haccept := accept?_of_mark? (t := .openBrace) rfl
      (hfront.symm ▸ hchars)
    rw [hfront] at haccept
    obtain ⟨hless, haccept⟩ := haccept
    rw [if_pos (hbrace.mpr hhead), haccept]
    dsimp only
    refine .get ?_
    have hscan : Finds text (scanTag text tag) s _ :=
      .behind hopen (lookAhead_finds tag hopen.place)
    cases hlook : lookAhead tag (.ofSource ⟨s.pos + 1, rest⟩) with
    | error e =>
        rw [hlook] at hscan
        cases hscan with
        | error hgives => exact .error hgives.bind_error
    | ok found =>
        rw [hlook] at hscan
        obtain ⟨value, start⟩ := found
        cases hscan with
        | ok hgives hstart =>
            refine .behind hgives ?_
            dsimp only
            cases branches_of_search (hsearch value) with
            | none hindex hlookup =>
                rw [hindex, hlookup]
                exact .error (.throw hstart _)
            | some hindex hbranch hlookup =>
                have hmem := mem_of_lookup hlookup
                rw [hindex, hlookup]
                -- wherever the scan stopped, the object is read from its brace
                refine .lift hbranch (.behind (.rewind hs _) (.behind hopen ?_))
                have hobject := properties_implements (hindexed _ hmem)
                  (hnode _ hmem) hother (some tag) _ hopen.place
                exact hobject.after fun _ => ⟨rfl, rfl⟩
  · have hnone : (Cursor.ofSource s).accept? .openBrace = none :=
      accept?_eq_none (by rwa [hfront])
    rw [if_neg fun heq => hhead (hbrace.mp heq), hnone, unexpected_ofSource,
      hfront]
    exact .error (unexpected_gives hs .object)

end

/-! ## Forms -/

section

variable {node : Node → Reader Value} {scan : Node → Scanner Failure Value}
    {other : Reader Value} {scanOther : Scanner Failure Value}

/-- Read the bracket that opens a value and then the value. -/
def scanOpened (t : Token) (what : Expected) (scan : Scanner Failure Value) :
    Scanner Failure Value := fun c => do
  let bracket ← scanToken t what c
  (scan bracket.rest).map fun v => v.after bracket.shorter

theorem opened_implements {c : Char} {t : Token} {what : Expected}
    (hmark : Lexeme.mark? c = some t) (hc : c.toNat < 128) {m : Reader Value}
    {scan : Scanner Failure Value} (h : Implements text m scan) :
    ImplementsFront text (do
        expect text c what
        m) (scanOpened t what scan) := by
  intro s hfront hs
  have hopen : Agrees text (expect text c what) s.front _ :=
    expect_agrees hmark hc (hfront.symm ▸ hs)
  rw [hfront] at hopen
  refine hopen.bind ?_
  rintro ⟨_, _, hshorter⟩ s' rfl hs'
  exact (h s' hs').after fun _ => ⟨rfl, rfl⟩

theorem elements_eq (config : Config) (target : Nat → Node) (item : Node) :
    Parsing.form config target scan scanOther (.elements item) =
      scanOpened .openBracket .array fun c =>
        (Parsing.items (scan item) c).map (Taken.map .arr) := by
  funext c
  simp only [Parsing.form, scanOpened, scanToken]
  cases c.accept? .openBracket with
  | none => rfl
  | some bracket =>
      dsimp only [bind, Except.bind]
      cases Parsing.items (scan item) bracket.rest with
      | error e => rfl
      | ok t => rfl

theorem values_eq (config : Config) (target : Nat → Node) (item : Node) :
    Parsing.form config target scan scanOther (.values item) =
      scanOpened .openBrace .object fun c =>
        (Parsing.members (fun _ _ => scan item) c).map (Taken.map .obj) := by
  funext c
  simp only [Parsing.form, scanOpened, scanToken]
  cases c.accept? .openBrace with
  | none => rfl
  | some brace =>
      dsimp only [bind, Except.bind]
      cases Parsing.members (fun _ _ => scan item) brace.rest with
      | error e => rfl
      | ok t => rfl

theorem object_eq (config : Config) (target : Nat → Node)
    (p : Program.Properties) :
    Parsing.form config target scan scanOther (.properties p) =
      scanOpened .openBrace .object
        (Parsing.properties scan scanOther p none) := by
  funext c
  simp only [Parsing.form, scanOpened, scanToken]
  cases c.accept? .openBrace with
  | none => rfl
  | some brace => rfl

theorem exists_definition {program : Program} {name : String} {i : Nat}
    (h : program.LeadsTo name i) :
    ∃ d, program.definitions[i]? = some d ∧ program.target i = d.2 := by
  have hunit := h.unit
  rw [units, List.getElem?_cons_succ, List.getElem?_map] at hunit
  obtain ⟨d, hd, -⟩ := Option.map_eq_some_iff.mp hunit
  refine ⟨d, hd, ?_⟩
  rw [Program.target, hd]
  rfl

theorem form_implements (parser : Parser) {g : JsonTypedef.Form}
    {f : Program.Form} (hcoherent : parser.program.Coherent g f)
    (hnode : ∀ n ∈ f.parts, Implements text (node n) (scan n))
    (htarget : ∀ d ∈ parser.program.definitions,
      Implements text (node d.2) (scan d.2))
    (hother : Implements text other scanOther) :
    ImplementsFront text (form text parser node other f)
      (Parsing.form parser.config parser.program.target scan scanOther f) := by
  intro s hfront hs
  have hbracket : Lexeme.mark? '[' = some .openBracket := rfl
  have hbrace : Lexeme.mark? '\x7b' = some .openBrace := rfl
  cases hcoherent with
  | empty => exact hother s hs
  | ref hleads =>
      obtain ⟨d, hd, hd_eq⟩ := exists_definition hleads
      rw [Parsing.form, hd_eq]
      exact .lift hd (htarget d (List.mem_of_getElem? hd) s hs)
  | type => exact primitive_implements parser.config _ s hfront hs
  | enum => exact enumValue_implements _ s hfront hs
  | @elements _ item =>
      have hitem := hnode item (List.mem_singleton.mpr rfl)
      rw [elements_eq]
      refine opened_implements hbracket (by decide) ?_ s hfront hs
      intro s hs
      exact (items_implements hitem s hs).map fun _ => ⟨rfl, rfl⟩
  | @values _ item =>
      have hitem := hnode item (List.mem_singleton.mpr rfl)
      rw [values_eq]
      refine opened_implements hbrace (by decide) ?_ s hfront hs
      intro s hs
      exact (members_closes (fun _ _ _ => hitem) hs).agrees Value.obj
        fun _ => ⟨rfl, rfl⟩
  | @properties _ q _ hindexed =>
      have hmembers : ∀ m ∈ q.declared, Implements text (node m.2) (scan m.2) :=
        fun m hm => hnode m.2 (mem_parts_of_declared hm)
      rw [object_eq]
      exact opened_implements hbrace (by decide)
        (properties_implements hindexed hmembers hother none) s hfront hs
  | discriminator hbranches =>
      exact discriminator_implements hbranches.search hbranches.indexed
        (fun b hb m hm => hnode m.2 (mem_parts_of_branch hb hm)) hother
        s hfront hs

end

end Bytewise
end JsonTypedef
