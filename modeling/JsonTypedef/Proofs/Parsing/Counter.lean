import JsonTypedef.Proofs.Parsing.Counted
import JsonTypedef.Proofs.Parsing.Limit

/-!
# What the depth counter bounds

`Counted.Tracks` compares a run with a counter with a reading for which the depth
is handed down.  It is proved function by function, each from what it says of the
functions below.  By `Counted.parse_bounded` the counter never passes the limit,
and it stands where it stood behind every value that is read; no more calls nest
than the limit and one, and no value nests deeper than the limit.
-/

namespace JsonTypedef
namespace Counted

open Parsing Program

/-! ## Runs that end like a reading -/

section

variable {α β : Type} {limit depth : Nat}

/-- With the counter at a depth the run ends like the reading.  It never raises
the counter above the limit.  Where it gives a value, the counter is back at the
depth, and the value has a property. -/
def Tracks (limit depth : Nat) (holds : α → Prop) (m : Run α)
    (r : Except Failure α) : Prop :=
  ∀ peak ≤ limit, ∃ k, m.run.run ⟨depth, peak⟩ = some (r, k) ∧
    k.peak ≤ limit ∧ ∀ a, r = .ok a → k.depth = depth ∧ holds a

variable {holds : α → Prop} {holds' : β → Prop}

theorem Tracks.pure {a : α} (h : holds a) :
    Tracks limit depth holds (Pure.pure a) (.ok a) := by
  intro peak hpeak
  refine ⟨⟨depth, peak⟩, rfl, hpeak, ?_⟩
  rintro _ ⟨⟩
  exact ⟨rfl, h⟩

theorem Tracks.error (e : Failure) :
    Tracks limit depth holds (throw e) (.error e) := by
  intro peak hpeak
  refine ⟨⟨depth, peak⟩, rfl, hpeak, ?_⟩
  rintro _ ⟨⟩

theorem Tracks.mono {m : Run α} {r : Except Failure α} {holds' : α → Prop}
    (hm : Tracks limit depth holds m r) (h : ∀ a, holds a → holds' a) :
    Tracks limit depth holds' m r := by
  intro peak hpeak
  obtain ⟨k, hrun, hk, hback⟩ := hm peak hpeak
  exact ⟨k, hrun, hk, fun a ha => (hback a ha).imp_right (h a)⟩

theorem run_bind_of_ok {m : Run α} {f : α → Run β} {k k' : Counter} {a : α}
    (h : m.run.run k = some (.ok a, k')) :
    (m >>= f).run.run k = (f a).run.run k' := by
  rw [ExceptT.run_bind, StateT.run_bind, h]
  rfl

theorem run_bind_of_error {m : Run α} {f : α → Run β} {k k' : Counter}
    {e : Failure} (h : m.run.run k = some (.error e, k')) :
    (m >>= f).run.run k = some (.error e, k') := by
  rw [ExceptT.run_bind, StateT.run_bind, h]
  rfl

/-- What is read without the counter leaves it alone. -/
theorem Tracks.lift {r : Except Failure α} (h : ∀ a, r = .ok a → holds a) :
    Tracks limit depth holds (liftM r) r := by
  cases r with
  | error e => exact .error e
  | ok a => exact .pure (h a rfl)

/-- A reading that goes on from the value of a first one, and fails like it. -/
theorem Tracks.step {m : Run α} {r : Except Failure α} {f : α → Run β}
    {r' : Except Failure β} (hm : Tracks limit depth holds m r)
    (herror : ∀ e, r = .error e → r' = .error e)
    (hok : ∀ a, r = .ok a → holds a → Tracks limit depth holds' (f a) r') :
    Tracks limit depth holds' (m >>= f) r' := by
  intro peak hpeak
  obtain ⟨⟨d, p⟩, hrun, hp, hback⟩ := hm peak hpeak
  cases r with
  | error e =>
      rw [herror e rfl]
      exact ⟨⟨d, p⟩, run_bind_of_error hrun, hp, by rintro _ ⟨⟩⟩
  | ok a =>
      obtain ⟨rfl, ha⟩ := hback a rfl
      rw [run_bind_of_ok hrun]
      exact hok a rfl ha p hp

theorem Tracks.map {m : Run α} {r : Except Failure α}
    (hm : Tracks limit depth holds m r) {f : α → β}
    (hf : ∀ a, holds a → holds' (f a)) :
    Tracks limit depth holds' (f <$> m) (r.map f) := by
  rw [map_eq_pure_bind]
  refine hm.step ?_ ?_
  · rintro e rfl
    rfl
  · rintro a rfl ha
    exact .pure (hf a ha)

theorem enter_of_lt {config : Config} (pos : Nat)
    (hdepth : depth < config.maxDepth) (peak : Nat) :
    (enter config pos).run.run ⟨depth, peak⟩ =
      some (.ok (), ⟨depth + 1, max peak (depth + 1)⟩) := by
  have hbelow : ¬ config.maxDepth ≤ depth := Nat.not_le.mpr hdepth
  rw [enter, run_bind_of_ok rfl, if_neg hbelow]
  rfl

/-- Below the limit a part is entered, and left behind its value. -/
theorem Tracks.entered {config : Config} {pos : Nat} {m : Run α}
    {r : Except Failure α} (hdepth : depth < config.maxDepth)
    (hm : Tracks config.maxDepth (depth + 1) holds m r) {f : α → β}
    (hf : ∀ a, holds a → holds' (f a)) :
    Tracks config.maxDepth depth holds' (do
        enter config pos
        let a ← m
        leave
        return f a) (r.map f) := by
  intro peak hpeak
  rw [run_bind_of_ok (enter_of_lt pos hdepth peak)]
  obtain ⟨⟨d, p⟩, hrun, hp, hback⟩ :=
    hm (max peak (depth + 1)) (Nat.max_le.mpr ⟨hpeak, hdepth⟩)
  cases r with
  | error e => exact ⟨⟨d, p⟩, run_bind_of_error hrun, hp, by rintro _ ⟨⟩⟩
  | ok a =>
      obtain ⟨rfl, ha⟩ := hback a rfl
      refine ⟨⟨depth, p⟩, ?_, hp, ?_⟩
      · rw [run_bind_of_ok hrun]
        rfl
      · rintro _ ⟨⟩
        exact ⟨rfl, hf a ha⟩

/-- At the limit nothing is entered. -/
theorem Tracks.refused {config : Config} {pos : Nat} {f : Unit → Run α}
    (hdepth : depth = config.maxDepth) :
    Tracks limit depth holds (enter config pos >>= f)
      (.error ⟨.depthExceeded config.maxDepth, pos⟩) := by
  intro peak hpeak
  have henter : (enter config pos).run.run ⟨depth, peak⟩ =
      some (.error ⟨.depthExceeded config.maxDepth, pos⟩, ⟨depth, peak⟩) := by
    rw [enter, run_bind_of_ok rfl, if_pos (Nat.le_of_eq hdepth.symm)]
    rfl
  exact ⟨_, run_bind_of_error henter, hpeak, by rintro _ ⟨⟩⟩

end

/-! ## Containers -/

section

variable {α : Type} {limit depth : Nat} {close : Token}
    {mismatch : Cursor → Failure} {holds : α → Prop}
    {item : List α → Counting α} {scan : List α → Scanner Failure α}
    (hitem : ∀ before c, Tracks limit depth (fun t => holds t.value)
      (item before c) (scan before c))

include hitem

theorem separated_tracks (before : List α) (c : Cursor) :
    Tracks limit depth (fun t => ∀ a ∈ t.value, holds a)
      (separated close mismatch item before c)
      (Scanner.separated close mismatch scan before c) := by
  -- Both loops go on where fewer tokens are left.
  induction hsize : c.size using Nat.strongRecOn generalizing before c with
  | ind n ih =>
      rw [separated]
      refine (hitem before c).step ?_ ?_
      · intro e he
        rw [Scanner.separated, he]
      rintro ⟨a, behind, hbehind⟩ hok ha
      rw [Scanner.separated, hok]
      dsimp only
      cases behind.take? with
      | none => exact .error _
      | some taken =>
          obtain ⟨t, next, hnext⟩ := taken
          dsimp only
          by_cases hclose : t = close
          · rw [if_pos hclose, if_pos hclose]
            exact .pure (by simpa using ha)
          rw [if_neg hclose, if_neg hclose]
          by_cases hcomma : t = .comma
          · rw [if_pos hcomma, if_pos hcomma]
            have hless : next.size < n := hsize ▸ hnext.trans hbehind
            refine (ih next.size hless (a :: before) next rfl).step ?_ ?_
            · intro e he
              rw [he]
            · rintro ⟨rest, last, hlast⟩ hok' hrest
              rw [hok']
              exact .pure (List.forall_mem_cons.mpr ⟨ha, hrest⟩)
          · rw [if_neg hcomma, if_neg hcomma]
            exact .error _

theorem enclosed_tracks (c : Cursor) :
    Tracks limit depth (fun t => ∀ a ∈ t.value, holds a)
      (enclosed close mismatch item c)
      (Scanner.enclosed close mismatch scan c) := by
  unfold enclosed Scanner.enclosed
  cases c.accept? close with
  | some t => exact .pure (by simp [Taken.map])
  | none => exact (separated_tracks hitem [] c.skipBlanks).map fun _ h => h

end

section

variable {limit depth left : Nat} {value : String → Nat → Counting Value}
    {scan : MemberValue}
    (hvalue : ∀ key pos c,
      Tracks limit depth (fun t => t.value.NestsWithin left) (value key pos c)
        (scan key pos c))

include hvalue

theorem member_tracks (before : Members) (c : Cursor) :
    Tracks limit depth (fun t => t.value.2.NestsWithin left)
      (member value before c) (Parsing.member scan before c) := by
  unfold member Parsing.member
  cases c.take? with
  | none => exact .error _
  | some taken =>
      obtain ⟨t, afterKey, hkey⟩ := taken
      cases t with
      | str key =>
          dsimp only
          by_cases hdup : before.has key = true
          · rw [if_pos hdup, if_pos hdup]
            exact .error _
          rw [if_neg hdup, if_neg hdup]
          cases afterKey.accept? .colon with
          | none => exact .error _
          | some colon => exact (hvalue key c.pos colon.rest).map fun _ h => h
      | _ => exact .error _

theorem members_tracks (c : Cursor) :
    Tracks limit depth (fun t => ∀ m ∈ t.value, m.2.NestsWithin left)
      (members value c) (Parsing.members scan c) :=
  enclosed_tracks (member_tracks hvalue) c

end

theorem items_tracks {limit depth left : Nat} {item : Counting Value}
    {scan : Scanner Failure Value}
    (hitem : ∀ c, Tracks limit depth (fun t => t.value.NestsWithin left)
      (item c) (scan c)) (c : Cursor) :
    Tracks limit depth (fun t => ∀ v ∈ t.value, v.NestsWithin left)
      (items item c) (Parsing.items scan c) :=
  enclosed_tracks (fun _ => hitem) c

/-! ## Values without a node -/

/-- Where no bracket opens a container it makes no difference what would fill
it. -/
theorem untypedWith_eq_of_other {config : Config} {c : Cursor}
    (inner : Option (Scanner Failure Value))
    (hbracket : ∀ rest h, c.take? ≠ some ⟨.openBracket, rest, h⟩)
    (hbrace : ∀ rest h, c.take? ≠ some ⟨.openBrace, rest, h⟩) :
    untypedWith config inner c = untypedWith config none c := by
  unfold untypedWith
  cases htake : c.take? with
  | none => rfl
  | some taken =>
      obtain ⟨t, rest, h⟩ := taken
      cases t with
      | openBracket => exact absurd htake (hbracket rest h)
      | openBrace => exact absurd htake (hbrace rest h)
      | _ => rfl

/-- A value that is no container is read without the counter. -/
theorem untypedWith_tracks {config : Config} {limit depth left : Nat}
    {c : Cursor} (hbracket : ∀ rest h, c.take? ≠ some ⟨.openBracket, rest, h⟩)
    (hbrace : ∀ rest h, c.take? ≠ some ⟨.openBrace, rest, h⟩) :
    Tracks limit depth (fun t => t.value.NestsWithin left)
      (liftM (untypedWith config none c)) (Parsing.untyped config left c) := by
  obtain ⟨inner, hinner⟩ := untyped_eq_untypedWith config left
  rw [hinner, untypedWith_eq_of_other inner hbracket hbrace]
  refine .lift fun t ht => ?_
  have hyields : Scanner.Yields (Parsing.untyped config 0 c) t.value
      t.rest.stream := ⟨t, ht, rfl, rfl⟩
  exact (untyped_within hyields).of_zero

theorem untyped_tracks {config : Config} {depth left calls : Nat}
    (hdepth : depth + left = config.maxDepth) (hcalls : left < calls)
    (c : Cursor) :
    Tracks config.maxDepth depth (fun t => t.value.NestsWithin left)
      (untyped config calls c) (Parsing.untyped config left c) := by
  induction left generalizing depth calls c with
  | zero =>
      cases calls with
      | zero => omega
      | succ calls =>
          unfold untyped
          split
          next htake =>
            rw [Parsing.untyped, untypedWith, htake]
            exact .refused hdepth
          next htake =>
            rw [Parsing.untyped, untypedWith, htake]
            exact .refused hdepth
          next hbracket hbrace => exact untypedWith_tracks hbracket hbrace
  | succ left ih =>
      cases calls with
      | zero => omega
      | succ calls =>
          have hbelow : depth < config.maxDepth := by omega
          have hinner : ∀ c, Tracks config.maxDepth (depth + 1)
              (fun t => t.value.NestsWithin left) (untyped config calls c)
              (Parsing.untyped config left c) :=
            ih (by omega) (by omega)
          unfold untyped
          split
          next rest h htake =>
            rw [Parsing.untyped, untypedWith, htake]
            exact (items_tracks hinner rest).entered hbelow fun _ h => h
          next rest h htake =>
            rw [Parsing.untyped, untypedWith, htake]
            exact (members_tracks (fun _ _ => hinner) rest).entered hbelow
              fun _ h => h
          next hbracket hbrace => exact untypedWith_tracks hbracket hbrace

/-! ## Values along a node -/

theorem primitive_nestsWithin {config : Config} {kind : TypeKind} {c : Cursor}
    {t : Taken Value c} (h : primitive config kind c = .ok t) {left : Nat} :
    t.value.NestsWithin left := by
  refine Value.NestsWithin.of_zero ?_
  unfold primitive typed at h
  split at h
  next => split at h <;> cases h; trivial
  next => split at h <;> cases h; trivial
  next => split at h <;> cases h; trivial
  next => cases h

theorem enumValue_nestsWithin {values : List String} {c : Cursor}
    {t : Taken Value c} (h : enumValue values c = .ok t) {left : Nat} :
    t.value.NestsWithin left := by
  refine Value.NestsWithin.of_zero ?_
  unfold enumValue at h
  split at h
  next => split at h <;> cases h; trivial
  next => cases h

theorem tagString_nestsWithin {c : Cursor} {t : Taken Value c}
    (h : tagString c = .ok t) {left : Nat} : t.value.NestsWithin left := by
  refine Value.NestsWithin.of_zero ?_
  unfold tagString at h
  split at h <;> cases h
  trivial

section

variable {limit depth left : Nat} {node : Node → Counting Value}
    {scan : Node → Scanner Failure Value} {other : Counting Value}
    {scanOther : Scanner Failure Value}
    (hnode : ∀ n c, Tracks limit depth (fun t => t.value.NestsWithin left)
      (node n c) (scan n c))
    (hother : ∀ c, Tracks limit depth (fun t => t.value.NestsWithin left)
      (other c) (scanOther c))

include hnode hother

theorem memberValue_tracks (p : Program.Properties) (tag : Option String)
    (key : String) (pos : Nat) (c : Cursor) :
    Tracks limit depth (fun t => t.value.NestsWithin left)
      (memberValue node other p tag key pos c)
      (Parsing.memberValue scan scanOther p tag key pos c) := by
  unfold memberValue Parsing.memberValue
  by_cases htag : tag = some key
  · rw [if_pos htag, if_pos htag]
    exact .lift fun t ht => tagString_nestsWithin ht
  rw [if_neg htag, if_neg htag]
  cases p.member? key with
  | some n => exact hnode n c
  | none =>
      by_cases hadditional : p.additional = true
      · rw [if_pos hadditional, if_pos hadditional]
        exact hother c
      · rw [if_neg hadditional, if_neg hadditional]
        exact .error _

theorem properties_tracks (p : Program.Properties) (tag : Option String)
    (c : Cursor) :
    Tracks limit depth (fun t => t.value.NestsWithin (left + 1))
      (properties node other p tag c)
      (Parsing.properties scan scanOther p tag c) := by
  unfold properties Parsing.properties
  refine (members_tracks (memberValue_tracks hnode hother p tag) c).step ?_ ?_
  · intro e he
    rw [he]
  · intro t ht hnests
    rw [ht]
    dsimp only
    cases p.required.find? fun m => !t.value.has m.1 with
    | some m => exact .error _
    | none => exact .pure hnests

theorem discriminator_tracks (tag : String)
    (branches : List (String × Program.Branch)) (c : Cursor) :
    Tracks limit depth (fun t => t.value.NestsWithin (left + 1))
      (discriminator node other tag branches c)
      (Parsing.discriminator scan scanOther tag branches c) := by
  unfold discriminator Parsing.discriminator
  cases c.accept? .openBrace with
  | none => exact .error _
  | some brace =>
      -- The object is looked through and read again with one and the same depth.
      have hlook : Tracks limit depth (fun _ => True)
          (liftM (lookAhead tag brace.rest)) (lookAhead tag brace.rest) :=
        .lift fun _ _ => trivial
      refine hlook.step ?_ ?_
      · intro e he
        dsimp only
        rw [he]
      · rintro ⟨value, pos⟩ hfound -
        dsimp only
        rw [hfound]
        dsimp only
        cases List.lookup value branches with
        | none => exact .error _
        | some branch =>
            exact (properties_tracks hnode hother branch.properties (some tag)
              brace.rest).map fun _ h => h

theorem form_tracks (config : Config) (target : Nat → Node)
    (f : Program.Form) (c : Cursor) :
    Tracks limit depth (fun t => t.value.NestsWithin (left + 1))
      (form config target node other f c)
      (Parsing.form config target scan scanOther f c) := by
  cases f with
  | empty => exact (hother c).mono fun _ h => h.succ
  | ref i => exact (hnode (target i) c).mono fun _ h => h.succ
  | type kind => exact .lift fun t ht => primitive_nestsWithin ht
  | enum values => exact .lift fun t ht => enumValue_nestsWithin ht
  | elements item =>
      simp only [form, Parsing.form]
      cases c.accept? .openBracket with
      | none => exact .error _
      | some bracket =>
          exact (items_tracks (hnode item) bracket.rest).map fun _ h => h
  | values item =>
      simp only [form, Parsing.form]
      cases c.accept? .openBrace with
      | none => exact .error _
      | some brace =>
          exact (members_tracks (fun _ _ => hnode item) brace.rest).map
            fun _ h => h
  | properties p =>
      simp only [form, Parsing.form]
      cases c.accept? .openBrace with
      | none => exact .error _
      | some brace =>
          exact (properties_tracks hnode hother p none brace.rest).map
            fun _ h => h
  | discriminator tag branches =>
      exact discriminator_tracks hnode hother tag branches c

end

theorem nullOr_tracks {limit depth left : Nat} {other : Counting Value}
    {scan : Scanner Failure Value}
    (hother : ∀ c, Tracks limit depth (fun t => t.value.NestsWithin left)
      (other c) (scan c)) (nullable : Bool) (c : Cursor) :
    Tracks limit depth (fun t => t.value.NestsWithin left)
      (nullOr nullable other c) (Parsing.nullOr nullable scan c) := by
  unfold nullOr
  split
  next hword =>
    unfold Parsing.nullOr
    rw [hword]
    exact .error _
  next hword =>
    have hplain : Parsing.nullOr true scan c =
        (c.accept? .null).elim (scan c) fun t => .ok (t.map fun _ => .null) := by
      unfold Parsing.nullOr
      split
      next hstream => exact (hword _ _ _ hstream).elim
      next => cases c.accept? .null <;> rfl
      next htrue => cases htrue
    have hnull : Value.null.NestsWithin 0 := trivial
    rw [hplain]
    cases c.accept? .null with
    | some t => exact .pure hnull.of_zero
    | none => exact hother c
  next => exact hother c

/-- To read along a node takes one level of the limit and one call, so that calls
last as long as levels do. -/
theorem node_tracks {config : Config} (target : Nat → Node)
    {depth left calls : Nat} (hdepth : depth + left = config.maxDepth)
    (hcalls : left < calls) (n : Node) (c : Cursor) :
    Tracks config.maxDepth depth (fun t => t.value.NestsWithin left)
      (node config target calls n c) (Parsing.node config target left n c) := by
  induction left generalizing depth calls n c with
  | zero =>
      cases calls with
      | zero => omega
      | succ calls => exact .refused hdepth
  | succ left ih =>
      cases calls with
      | zero => omega
      | succ calls =>
          have hinner : depth + 1 + left = config.maxDepth := by omega
          have hroom : left < calls := Nat.lt_of_succ_lt_succ hcalls
          have hform := form_tracks (fun n c => ih hinner hroom n c)
            (untyped_tracks hinner hroom) config target n.form
          exact (nullOr_tracks hform n.nullable c.skipBlanks).entered
            (by omega) fun _ h => h

theorem parse_tracks (parser : Parser) (text : String) :
    Tracks parser.config.maxDepth 0 (·.NestsWithin parser.config.maxDepth)
      (parse parser (parser.config.maxDepth + 1) text) (parser.parse text) := by
  unfold parse Parser.parse
  refine (node_tracks parser.program.target (Nat.zero_add _)
    (Nat.lt_succ_self _) parser.program.root (.ofText text)).step ?_ ?_
  · intro e he
    rw [he]
  · intro t ht hnests
    rw [ht]
    dsimp only
    cases t.rest.stream with
    | finish => exact .pure hnests
    | _ => exact .error _

/-- A parser with a counter, and room for one call more than the limit, ends like
the parser that hands down the depth, and its counter never passes the limit.  So
it is for every node and every value that no node describes, from every depth up
to the limit: where a value is read the counter is back at that depth, and the
value nests no deeper than what was left of the limit.  Hence no value nests
deeper than the limit to which a text is parsed. -/
theorem parse_bounded (parser : Parser) (text : String) :
    Tracks parser.config.maxDepth 0 (·.NestsWithin parser.config.maxDepth)
      (parse parser (parser.config.maxDepth + 1) text) (parser.parse text) ∧
    (∀ depth left calls, depth + left = parser.config.maxDepth → left < calls →
      (∀ n c, Tracks parser.config.maxDepth depth
        (fun t => t.value.NestsWithin left)
        (node parser.config parser.program.target calls n c)
        (Parsing.node parser.config parser.program.target left n c)) ∧
      ∀ c, Tracks parser.config.maxDepth depth
        (fun t => t.value.NestsWithin left) (untyped parser.config calls c)
        (Parsing.untyped parser.config left c)) ∧
    ∀ v, parser.parse text = .ok v →
      v.NestsWithin parser.config.maxDepth := by
  refine ⟨parse_tracks parser text, ?_, ?_⟩
  · intro depth left calls hdepth hcalls
    exact ⟨node_tracks parser.program.target hdepth hcalls,
      untyped_tracks hdepth hcalls⟩
  · intro v hv
    obtain ⟨k, -, -, hback⟩ := parse_tracks parser text 0 (Nat.zero_le _)
    exact (hback v hv).2

end Counted
end JsonTypedef
