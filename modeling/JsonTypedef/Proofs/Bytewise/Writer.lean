import JsonTypedef.Proofs.Serialization.Interrupted

/-!
# Serializing into a buffer of bytes

A writer appends to a buffer of bytes: brackets, commas, names, the tag and the
values that are written as they stand, each as soon as it is known.  What it has
appended stays where it meets the depth limit.  It goes through the members of
an object as they are declared and as they come, and keeps in mind whether a
comma is needed.

A writer performs what a run writes if it appends just that text to every buffer
and gets to its end where the run does.
-/

namespace JsonTypedef

theorem Written.andThen_nil (w : Written) :
    (w.andThen fun _ => ofText []) = w := by
  obtain ⟨text, complete⟩ := w
  cases complete <;> simp [andThen, ofText]

namespace Bytewise

open Program

/-- A run that appends to a buffer until it meets the depth limit. -/
abbrev Writer := ExceptT DepthExceeded (StateM ByteArray)

namespace Writer

/-- What a run gives, and the buffer behind it. -/
def runOn {α : Type} (m : Writer α) (buffer : ByteArray) :
    Except DepthExceeded α × ByteArray :=
  (m.run.run buffer).run

/-! ## The writer -/

/-- Append a text. -/
def push (text : String) : Writer Unit :=
  modify fun buffer => buffer ++ text.toByteArray

/-- Append a comma if there is a piece in front, as there is for the next. -/
def separator (first : Bool) : Writer Bool := do
  unless first do push ","
  return false

/-- Append the name of a member. -/
def key (name : String) : Writer Unit := do
  push (String.ofList (Quoted.encode name))
  push ":"

/-- Append a value as it stands. -/
def plain (v : Value) : Writer Unit :=
  push v.write

/-- Append pieces with commas between them. -/
def pieces {α : Type} (write : α → Writer Unit) (first : Bool) :
    List α → Writer Bool
  | [] => return first
  | a :: as => do
    let first ← separator first
    write a
    pieces write first as

/-- Append pieces between brackets. -/
def enclosed {α : Type} (opening closing : String) (write : α → Writer Unit)
    (as : List α) : Writer Unit := do
  push opening
  let _ ← pieces write true as
  push closing

section

variable (run : Node → Value → Writer Unit) (p : Program.Properties)

/-- Append the tag and its value, where there is a tag. -/
def tagged : Option (String × String) → Writer Bool
  | none => return true
  | some (tag, value) => do
    key tag
    push (String.ofList (Quoted.encode value))
    return false

/-- Append those of the declared members that an object has. -/
def declared (ms : Members) (first : Bool) :
    List (String × Node) → Writer Bool
  | [] => return first
  | m :: rest =>
    match ms.get? m.1 with
    | none => declared ms first rest
    | some v => do
      let first ← separator first
      key m.1
      run m.2 v
      declared ms first rest

/-- Append the members that are neither the tag nor declared. -/
def others (tag : Option String) (first : Bool) : Members → Writer Bool
  | [] => return first
  | m :: ms =>
    if tag = some m.1 || p.declares m.1 then others tag first ms
    else do
      let first ← separator first
      key m.1
      plain m.2
      others tag first ms

/-- Append an object along its declarations. -/
def object (tag : Option (String × String)) (ms : Members) : Writer Unit := do
  push "\x7b"
  let first ← tagged tag
  let first ← declared run ms first p.declared
  if p.additional then
    let _ ← others p (tag.map Prod.fst) first ms
  push "\x7d"

/-- Append a value that is not null along a form. -/
def form (target : Nat → Node) (v : Value) : Program.Form → Writer Unit
  | .ref i => run (target i) v
  | .elements item =>
    match v with
    | .arr items => enclosed "[" "]" (run item) items
    | _ => plain v
  | .values item =>
    match v with
    | .obj ms =>
      enclosed "\x7b" "\x7d" (fun m => do key m.1; run item m.2) ms
    | _ => plain v
  | .properties p =>
    match v with
    | .obj ms => object run p none ms
    | _ => plain v
  | .discriminator tag branches =>
    match v with
    | .obj ms =>
      match Serializer.branch? tag branches ms with
      | some (value, branch) =>
        object run branch.properties (some (tag, value)) ms
      | none => plain v
    | _ => plain v
  | _ => plain v

end

/-- Append a value along a node with the given depth left of the limit. -/
def node (target : Nat → Node) (limit : Nat) : Nat → Node → Value → Writer Unit
  | 0, _, _ => throw ⟨limit⟩
  | depth + 1, n, v =>
    match v with
    | .null => plain .null
    | v => form (node target limit depth) target v n.form

end Writer

/-- Append the text of a value to a buffer. -/
def serializeInto (serializer : Serializer) (v : Value) (buffer : ByteArray) :
    Except DepthExceeded Unit × ByteArray :=
  (Writer.node serializer.program.target serializer.config.maxDepth
    serializer.config.maxDepth serializer.program.root v).runOn buffer

/-- The text of a value, provided that what is appended to an empty buffer is
text. -/
def serialize (serializer : Serializer) (v : Value) :
    Except DepthExceeded (Option String) :=
  let (result, buffer) := serializeInto serializer v .empty
  result.map fun _ => String.fromUTF8? buffer

namespace Writer

open Written

/-! ## One loop over the members

The loops over the members of an object are one loop over the members that are
selected. -/

/-- Append a selected member. -/
def member (run : Node → Value → Writer Unit)
    (m : String × Option Node × Value) : Writer Unit := do
  key m.1
  match m.2.1 with
  | some n => run n m.2.2
  | none => plain m.2.2

theorem pieces_append {α : Type} (write : α → Writer Unit) (first : Bool)
    (as bs : List α) :
    pieces write first (as ++ bs) =
      pieces write first as >>= fun first => pieces write first bs := by
  induction as generalizing first with
  | nil => simp [pieces]
  | cons a as ih => simp [pieces, ih]

section

variable (run : Node → Value → Writer Unit) {p : Program.Properties}
  {ms : Members}

theorem tagged_eq (tag : Option (String × String)) :
    tagged tag = pieces (member run) true
      (tag.toList.map fun t => (t.1, none, .str t.2)) := by
  cases tag with
  | none => rfl
  | some t =>
      simp [tagged, pieces, member, separator, plain, Value.write, Value.text]

theorem declared_eq (first : Bool) (ds : List (String × Node)) :
    declared run ms first ds =
      pieces (member run) first
        (ds.filterMap fun m =>
          (ms.get? m.1).map fun v => (m.1, some m.2, v)) := by
  induction ds generalizing first with
  | nil => rfl
  | cons d ds ih =>
      cases hget : ms.get? d.1 with
      | none => simp [declared, hget, ih]
      | some v => simp [declared, hget, ih, pieces, member]

theorem others_eq (tag : Option String) (first : Bool) :
    others p tag first ms =
      pieces (member run) first
        ((ms.filter fun m => !(tag = some m.1 || p.declares m.1)).map
          fun m => (m.1, none, m.2)) := by
  induction ms generalizing first with
  | nil => rfl
  | cons m ms ih =>
      rw [others, List.filter_cons]
      cases tag = some m.1 || p.declares m.1 with
      | true => exact ih first
      | false => simp [ih, pieces, member]

theorem object_eq (tag : Option (String × String)) :
    object run p tag ms = enclosed "\x7b" "\x7d" (member run)
      (tag.toList.map (fun t => (t.1, none, .str t.2)) ++
        Serializer.selected p (tag.map Prod.fst) ms) := by
  unfold object enclosed Serializer.selected
  simp only [pieces_append, ← tagged_eq run, ← declared_eq run]
  split
  next => simp [others_eq run]
  next => simp [pieces]

end

/-! ## What is appended -/

section

variable {α β : Type}

/-- The writer appends to every buffer what a run has written, and gets to its
end, with a result, where that run does. -/
def Performs (e : DepthExceeded) (m : Writer α) (w : Written) (a : α) : Prop :=
  ∀ buffer : ByteArray, m.runOn buffer =
    (if w.complete then .ok a else .error e,
      buffer ++ (String.ofList w.text).toByteArray)

variable {e : DepthExceeded} {m : Writer α} {a : α} {b : β} {w : Written}

theorem runOn_bind (m : Writer α) (f : α → Writer β) (buffer : ByteArray) :
    (m >>= f).runOn buffer =
      match m.runOn buffer with
      | (.ok a, buffer) => (f a).runOn buffer
      | (.error e, buffer) => (.error e, buffer) := by
  cases h : m.runOn buffer with
  | mk result rest =>
      have hm : m.run.run buffer = (result, rest) := h
      simp only [runOn, ExceptT.run_bind, StateT.run_bind]
      rw [hm]
      cases result <;> rfl

theorem Performs.bind {f : α → Writer β} {w' : Unit → Written}
    (hm : Performs e m w a) (hf : Performs e (f a) (w' ()) b) :
    Performs e (m >>= f) (w.andThen w') b := by
  intro buffer
  rw [runOn_bind, hm buffer]
  cases hcomplete : w.complete with
  | false =>
      rw [andThen_of_not_complete hcomplete, hcomplete]
      rfl
  | true =>
      rw [andThen_of_complete hcomplete, String.ofList_append,
        String.toByteArray_append, ← ByteArray.append_assoc]
      exact hf _

theorem Performs.andThen {m' : Writer β} {w' : Written}
    (hm : Performs e m w a) (hm' : Performs e m' w' b) :
    Performs e (m >>= fun _ => m') (w.andThen fun _ => w') b :=
  hm.bind hm'

theorem performs_pure (e : DepthExceeded) (a : α) :
    Performs e (pure a) (ofText []) a := by
  intro buffer
  exact congrArg (Prod.mk _) ByteArray.append_empty.symm

theorem performs_push (e : DepthExceeded) (text : List Char) :
    Performs e (push (String.ofList text)) (ofText text) () :=
  fun _ => rfl

theorem performs_separator (e : DepthExceeded) (first : Bool) :
    Performs e (separator first) (ofText (if first then [] else [',']))
      false := by
  cases first with
  | true => exact performs_pure e false
  | false => exact (performs_push e [',']).andThen (performs_pure e false)

theorem performs_key (e : DepthExceeded) (name : String) :
    Performs e (key name) (ofText (Quoted.encode name ++ [':'])) () :=
  (performs_push e (Quoted.encode name)).andThen (performs_push e [':'])

theorem performs_plain (e : DepthExceeded) (v : Value) :
    Performs e (plain v) (Serializer.plain v) () :=
  performs_push e v.text

section

variable {write : α → Writer Unit} {write' : α → Written}

/-- Behind the first piece each piece needs a comma. -/
theorem performs_first {a : α} {as : List α}
    (h : ∀ b ∈ a :: as, Performs e (write b) (write' b) ()) :
    Performs e (write a >>= fun _ => pieces write false as)
      (commaSeparated write' (a :: as)) false := by
  induction as generalizing a with
  | nil =>
      have hlast := (h a List.mem_cons_self).andThen (performs_pure e false)
      rwa [andThen_nil] at hlast
  | cons b as ih =>
      rw [pieces, ← bind_assoc]
      refine Performs.bind ((h a List.mem_cons_self).bind
        (performs_separator e false)) (ih ?_)
      exact fun c hc => h c (List.mem_cons_of_mem a hc)

theorem performs_pieces {as : List α}
    (h : ∀ a ∈ as, Performs e (write a) (write' a) ()) :
    Performs e (pieces write true as) (commaSeparated write' as)
      as.isEmpty := by
  cases as with
  | nil => exact performs_pure e true
  | cons a as =>
      have hpieces : Performs e (pieces write true (a :: as))
          ((ofText []).andThen fun _ => commaSeparated write' (a :: as))
          false :=
        Performs.bind (performs_separator e true) (performs_first h)
      exact hpieces

theorem performs_enclosed (opening closing : Char) {as : List α}
    (h : ∀ a ∈ as, Performs e (write a) (write' a) ()) :
    Performs e
      (enclosed (String.ofList [opening]) (String.ofList [closing]) write as)
      (bracketed opening closing write' as) () := by
  rw [enclosed, ← bind_assoc]
  exact ((performs_push e [opening]).andThen (performs_pieces h)).andThen
    (performs_push e [closing])

end

end

section

variable {e : DepthExceeded} {run : Node → Value → Writer Unit}
  {run' : Serializer.Run} (hrun : ∀ n v, Performs e (run n v) (run' n v) ())

include hrun

theorem performs_member (m : String × Option Node × Value) :
    Performs e (member run m) (Serializer.selectedMember run' m) () := by
  obtain ⟨name, n, v⟩ := m
  refine (performs_key e name).andThen ?_
  cases n with
  | none => exact performs_plain e v
  | some n => exact hrun n v

theorem performs_object (p : Program.Properties)
    (tag : Option (String × String)) (ms : Members) :
    Performs e (object run p tag ms)
      (bracketed '\x7b' '\x7d' (Serializer.selectedMember run')
        (tag.toList.map (fun t => (t.1, none, .str t.2)) ++
          Serializer.selected p (tag.map Prod.fst) ms)) () := by
  rw [object_eq]
  exact performs_enclosed _ _ fun m _ => performs_member hrun m

theorem performs_form (target : Nat → Node) (v : Value) (f : Program.Form) :
    Performs e (form run target v f) (Serializer.form target run' v f) () := by
  cases f with
  | ref i => exact hrun _ _
  | elements item =>
      cases v with
      | arr items => exact performs_enclosed _ _ fun v _ => hrun item v
      | _ => exact performs_plain e _
  | values item =>
      cases v with
      | obj ms =>
          exact performs_enclosed _ _ fun m _ =>
            (performs_key e m.1).andThen (hrun item m.2)
      | _ => exact performs_plain e _
  | properties p =>
      cases v with
      | obj ms => exact performs_object hrun p none ms
      | _ => exact performs_plain e _
  | discriminator tag branches =>
      cases v with
      | obj ms =>
          simp only [form, Serializer.form]
          cases Serializer.branch? tag branches ms with
          | none => exact performs_plain e _
          | some b =>
              exact performs_object hrun b.2.properties (some (tag, b.1)) ms
      | _ => exact performs_plain e _
  | _ => exact performs_plain e _

end

/-- A writer performs what the run along the same node writes. -/
theorem performs_node (target : Nat → Node) (limit depth : Nat) (n : Node)
    (v : Value) :
    Performs ⟨limit⟩ (node target limit depth n v)
      (Serializer.node target depth n v) () := by
  induction depth generalizing n v with
  | zero =>
      intro buffer
      exact congrArg (Prod.mk _) ByteArray.append_empty.symm
  | succ depth ih =>
      cases v with
      | null => exact performs_plain _ .null
      | _ => exact performs_form ih target _ n.form

end Writer

open Serializer

/-- What appending a value to a buffer gives. -/
theorem serializeInto_eq (serializer : Serializer) (v : Value)
    (buffer : ByteArray) :
    serializeInto serializer v buffer =
      (if (serializer.run v).complete then .ok ()
        else .error ⟨serializer.config.maxDepth⟩,
        buffer ++ (String.ofList (serializer.run v).text).toByteArray) :=
  Writer.performs_node _ _ _ _ v buffer

/-- The buffer holds text: it is the one that grows character by character. -/
theorem serializeInto_toByteArray (serializer : Serializer) (v : Value)
    (buffer : String) :
    serializeInto serializer v buffer.toByteArray =
      ((serializer.serializeInto buffer v).2,
        (serializer.serializeInto buffer v).1.toByteArray) := by
  rw [serializeInto_eq, Serializer.serializeInto, String.toByteArray_append]

theorem fromUTF8?_toByteArray (text : String) :
    String.fromUTF8? text.toByteArray = some text := by
  rw [String.fromUTF8?, dif_pos text.isValidUTF8]
  rfl

theorem serialize_eq (serializer : Serializer) (v : Value) :
    serialize serializer v = (serializer.serialize v).map some := by
  have hinto : serializeInto serializer v .empty = _ :=
    serializeInto_toByteArray serializer v ""
  unfold serialize Serializer.serialize
  rw [hinto]
  obtain ⟨text, result⟩ := serializer.serializeInto "" v
  cases result with
  | error e => rfl
  | ok => exact congrArg Except.ok (fromUTF8?_toByteArray text)

/-- Serializing into a buffer only appends to it.  What is appended is the text
of the value, or, where the depth limit is met, a proper prefix of every text
that the value has under a greater limit. -/
theorem serializeInto_appends (program : Program) (config : Config)
    (v : Value) :
    (∀ buffer : String,
      serializeInto ⟨program, config⟩ v buffer.toByteArray =
        ((Serializer.serializeInto ⟨program, config⟩ buffer v).2,
          (Serializer.serializeInto ⟨program, config⟩ buffer
            v).1.toByteArray)) ∧
    serialize ⟨program, config⟩ v =
      (Serializer.serialize ⟨program, config⟩ v).map some ∧
    ∃ written : String,
      ((∀ buffer, serializeInto ⟨program, config⟩ v buffer =
          (.ok (), buffer ++ written.toByteArray)) ∧
        Serializer.serialize ⟨program, config⟩ v = .ok written) ∨
      ((∀ buffer, serializeInto ⟨program, config⟩ v buffer =
          (.error ⟨config.maxDepth⟩, buffer ++ written.toByteArray)) ∧
        Serializer.serialize ⟨program, config⟩ v = .error ⟨config.maxDepth⟩ ∧
        ∀ limit > config.maxDepth, ∀ text,
          Serializer.serialize ⟨program, { config with maxDepth := limit }⟩ v =
              .ok text →
            ∃ rest ≠ "", written ++ rest = text) := by
  refine ⟨serializeInto_toByteArray _ v, serialize_eq _ v,
    String.ofList (Serializer.run ⟨program, config⟩ v).text, ?_⟩
  cases hcomplete : (Serializer.run ⟨program, config⟩ v).complete with
  | true =>
      refine Or.inl ⟨fun buffer => ?_, ?_⟩
      · rw [serializeInto_eq, if_pos hcomplete]
      · exact Serializer.serialize_eq_ok_iff.mpr ⟨hcomplete, rfl⟩
  | false =>
      have hcut : ¬ (Serializer.run ⟨program, config⟩ v).complete = true := by
        simp [hcomplete]
      refine Or.inr ⟨fun buffer => ?_, ?_, fun limit hlt text htext => ?_⟩
      · rw [serializeInto_eq, if_neg hcut]
      · simp only [Serializer.serialize, Serializer.serializeInto, if_neg hcut,
          Except.map]
      · exact Serializer.exists_rest_of_interrupted hcomplete hlt htext

example : serializeInto ⟨chainProgram, { maxDepth := 2 }⟩ weightedChain
    "= ".toByteArray =
      (.error ⟨2⟩, "= \x7b\"id\":".toByteArray) := by
  decide +kernel

end Bytewise
end JsonTypedef
