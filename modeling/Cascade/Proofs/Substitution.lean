import Cascade.Proofs.Definitions
import Cascade.Proofs.Kinship
import Cascade.Proofs.Termination

/-!
# Substitution in values

Where no mixins are about and all definitions are settled, reading values comes to
an end.  A reference is replaced by values in which nothing is left to replace, so
that each substitution uses up a sign of the source.

**Method.**  Values and statements lower the effort: the number of signs that can
still be replaced, and then the number of values.  What a reader has before it
stays tame, at the place where the reader is.  Values are read by induction on the
effort.

**Results.**
* `halts_definition`: a definition is read, and its value is settled.
* `halts_variableUse_of`: a variable is defined or replaced.
* `haltsLists`: lists of values.
-/

namespace Cascade

/-- A scope whose variables and aliases are bound to settled values, and that captures nothing. -/
structure Scope.Settled (f : Scope) : Prop where
  assigned : ∀ e ∈ f.assigned, ∀ v ∈ e.2, v.Settled
  aliases : ∀ e ∈ f.aliases, ∀ v ∈ e.2, v.Settled
  parameters : f.parameters = []
  capture : f.isCapture = false

/-- The value is the start of something that may be replaced. -/
def Value.isReplaceable : Value → Bool
  | .token t => t.isDelim "$" || (t.type == .atKeyword && Text.foldCase t.text != "media")
  | _ => false

theorem Value.Settled.isReplaceable {v : Value} (h : v.Settled) :
    v.isReplaceable = false := by
  cases h with
  | @token t _ hdollar hkeyword =>
      by_cases htype : t.type = .atKeyword
      · simp [Value.isReplaceable, hdollar, hkeyword htype]
      · simp [Value.isReplaceable, hdollar, htype]
  | block _ => rfl
  | call => rfl

namespace Substitution

/-! ## Effort -/

/-- The signs in a list that may be replaced, and the length of the list. -/
def effort (vs : List Value) : ℕ ×ₗ ℕ :=
  toLex (vs.countP Value.isReplaceable, vs.length)

theorem effort_le_append (us vs : List Value) :
    effort vs ≤ effort (us ++ vs) := by
  have hcount : vs.countP Value.isReplaceable ≤ (us ++ vs).countP Value.isReplaceable := by
    rw [List.countP_append]
    exact Nat.le_add_left _ _
  rcases Nat.lt_or_eq_of_le hcount with hlt | heq
  · exact Prod.Lex.toLex_le_toLex.mpr (.inl hlt)
  · refine Prod.Lex.toLex_le_toLex.mpr (.inr ⟨heq, ?_⟩)
    simp only [List.length_append]
    exact Nat.le_add_left _ _

theorem effort_lt_cons (v : Value) (vs : List Value) :
    effort vs < effort (v :: vs) := by
  by_cases hv : v.isReplaceable = true
  · refine Prod.Lex.toLex_lt_toLex.mpr (.inl ?_)
    simp [hv]
  · refine Prod.Lex.toLex_lt_toLex.mpr (.inr ⟨?_, ?_⟩)
    · simp [hv]
    · simp

/-- Substitution uses up a sign, however many values it puts in its place. -/
theorem effort_splice_lt {v : Value} (hv : v.isReplaceable = true) {spliced : List Value}
    (hspliced : ∀ u ∈ spliced, u.Settled) (us vs : List Value) :
    effort (spliced ++ vs) < effort (v :: (us ++ vs)) := by
  have hnone : spliced.countP Value.isReplaceable = 0 := by
    rw [List.countP_eq_zero]
    intro u hu
    simp [(hspliced u hu).isReplaceable]
  refine Prod.Lex.toLex_lt_toLex.mpr (.inl ?_)
  simp only [List.countP_append, List.countP_cons, hnone, hv, if_true]
  omega

theorem effort_skipWhitespace_le (c : Cursor) :
    effort c.skipWhitespace.rest ≤ effort c.rest := by
  rw [Cursor.rest_skipWhitespace]
  conv_rhs => rw [← List.takeWhile_append_dropWhile (p := Value.isWhitespace) (l := c.rest)]
  exact effort_le_append _ _

/-! ## Steps of a reader -/

/-- What a reader is about to read is tame, and so is what its names are bound to. -/
structure TameReader (place : Option (List TokenType)) (r : Reader) : Prop where
  rest : Tame place r.cursor.rest
  frames : ∀ f ∈ r.scopes.frames, f.Settled

/-- The reader `s` is tame, and the effort that is left has the relation to that of `r`. -/
structure Proceeds (rel : ℕ ×ₗ ℕ → ℕ ×ₗ ℕ → Prop) (place : Option (List TokenType))
    (r s : Reader) : Prop where
  tame : TameReader place s
  limits : s.limits = r.limits
  nesting : s.nesting = r.nesting
  effort : rel (effort s.cursor.rest) (effort r.cursor.rest)

/-- Something may have been read. -/
abbrev Follows : Option (List TokenType) → Reader → Reader → Prop :=
  Proceeds (· ≤ ·)

/-- Something has been read. -/
abbrev Lowers : Option (List TokenType) → Reader → Reader → Prop :=
  Proceeds (· < ·)

section Steps

variable {place place' place'' : Option (List TokenType)} {r s t : Reader}

namespace Proceeds

theorem trans {P Q R : ℕ ×ₗ ℕ → ℕ ×ₗ ℕ → Prop} (h : Proceeds P place r s)
    (k : Proceeds Q place' s t) (hrel : ∀ {a b c}, P b a → Q c b → R c a) :
    Proceeds R place' r t :=
  ⟨k.tame, k.limits.trans h.limits, k.nesting.trans h.nesting, hrel h.effort k.effort⟩

theorem refl (h : TameReader place r) :
    Follows place r r :=
  ⟨h, rfl, rfl, le_rfl⟩

theorem follows (h : Lowers place r s) :
    Follows place r s :=
  ⟨h.tame, h.limits, h.nesting, le_of_lt h.effort⟩

theorem thenFollow (h : Follows place r s) (k : Follows place' s t) :
    Follows place' r t :=
  h.trans k fun hba hcb => le_trans hcb hba

theorem thenLower (h : Follows place r s) (k : Lowers place' s t) :
    Lowers place' r t :=
  h.trans k fun hba hcb => lt_of_lt_of_le hcb hba

theorem lowerThenFollow (h : Lowers place r s) (k : Follows place' s t) :
    Lowers place' r t :=
  h.trans k fun hba hcb => lt_of_le_of_lt hcb hba

theorem unnest {rel : ℕ ×ₗ ℕ → ℕ ×ₗ ℕ → Prop} {depth : Int}
    (h : Proceeds rel place { r with nesting := r.nesting + 1, deepest := depth } s) :
    Proceeds rel place r { s with nesting := s.nesting - 1 } := by
  refine ⟨{ h.tame with }, h.limits, ?_, h.effort⟩
  have hnesting := h.nesting
  simp only at hnesting ⊢
  omega

theorem exit {rel : ℕ ×ₗ ℕ → ℕ ×ₗ ℕ → Prop} {scopes : Scopes}
    (h : Proceeds rel place { r with scopes := scopes } s) :
    Proceeds rel place r { s with scopes := s.scopes.exit } :=
  ⟨{ h.tame with frames := fun f hf => h.tame.frames f (Scopes.mem_frames_exit hf) }, h.limits,
    h.nesting, h.effort⟩

end Proceeds

theorem settled_empty :
    Scope.Settled {} :=
  ⟨nofun, nofun, rfl, rfl⟩

theorem TameReader.inScope (h : TameReader place r) :
    TameReader place { r with scopes := r.scopes.enter } := by
  refine { h with frames := ?_ }
  intro f hf
  rcases List.mem_cons.mp hf with rfl | hf
  · exact settled_empty
  · exact h.frames f hf

theorem TameReader.leave (h : TameReader place r) :
    TameReader none r :=
  ⟨h.rest.leave, h.frames⟩

theorem rest_of_peek {c : Cursor} {v : Value} (h : c.peek 0 = some v) :
    c.rest = v :: c.next.2.rest := by
  rw [Cursor.peek_eq_getElem?, ← List.head?_eq_getElem?] at h
  rw [Cursor.rest_next]
  obtain ⟨vs, hvs⟩ := List.head?_eq_some_iff.mp h
  rw [hvs, List.tail_cons]

theorem TameReader.front (h : TameReader place r) {v : Value} (hfront : r.cursor.peek 0 = some v) :
    Tame place (v :: r.cursor.next.2.rest) := by
  rw [← rest_of_peek hfront]
  exact h.rest

/-- The front value has been read. -/
theorem lowers_next (h : TameReader place r) {v : Value} (hfront : r.cursor.peek 0 = some v)
    (hrest : Tame place' r.cursor.next.2.rest) :
    Lowers place' r { r with cursor := r.cursor.next.2 } := by
  refine ⟨⟨hrest, h.frames⟩, rfl, rfl, ?_⟩
  rw [rest_of_peek hfront]
  exact effort_lt_cons v _

end Steps

open Read

section Values

variable {β : Type} {place outer : Option (List TokenType)} {r s : Reader} {v : Value} {t : Token}

theorem meets_next {place' : Option (List TokenType)} (h : TameReader place r)
    (hfront : r.cursor.peek 0 = some v) (hrest : Tame place' r.cursor.next.2.rest) :
    Read.Meets (fun u s => u = some v ∧ Lowers place' r s) (next r) := by
  rw [next_of_peek hfront]
  exact ⟨rfl, lowers_next h hfront hrest⟩

theorem meets_pass (h : TameReader place r) (hfront : r.cursor.peek 0 = some v)
    (hrest : Tame place r.cursor.next.2.rest) :
    Read.Meets (fun u s => u = some v ∧ Lowers place r s) ((do remember v; next) r) := by
  have hs := lowers_next h hfront hrest
  rw [pass_of_peek hfront]
  exact ⟨rfl, { hs.tame with }, hs.limits, hs.nesting, hs.effort⟩

theorem consume_of_peek {type : TokenType} (what : String)
    (hfront : r.cursor.peek 0 = some (.token t)) (ht : t.type = type) :
    scan (Scan.consume type what) r = .ok t { r with cursor := r.cursor.next.2 } := by
  simp [scan, Scan.consume, Cursor.peekToken, hfront, ht]

theorem consumeDelim_of_peek {text : String} (what : String)
    (hfront : r.cursor.peek 0 = some (.token t)) (ht : t.isDelim text = true) :
    scan (Scan.consumeDelim text what) r = .ok t { r with cursor := r.cursor.next.2 } := by
  simp [scan, Scan.consumeDelim, Cursor.peekToken, hfront, ht]

theorem meets_opener (h : TameReader place r) (hfront : r.cursor.peek 0 = some (.token t))
    (hopen : GoesOn place (.token t)) {closer : TokenType}
    (hpartner : t.type.partner? = some closer) :
    Read.Meets (fun found s => found = (t, closer) ∧ Lowers (inside closer place) r s)
      (scan Scan.opener r) := by
  have hrun : Scan.opener r.cursor = .ok (t, closer) r.cursor.next.2 := by
    simp [Scan.opener, Scan.look, Scan.next, bind, EStateM.bind, pure, EStateM.pure,
      Cursor.peekToken, hfront, hpartner]
  simp only [scan, hrun]
  exact ⟨rfl, lowers_next h hfront ((h.front hfront).opened hopen (TokenType.closer?_of_partner? hpartner))⟩

/-- What the end of a value list may answer: a result, or that the list goes on with a value. -/
def Ended (place : Option (List TokenType)) (R : β → Reader → Reader → Prop) (r : Reader) :
    Option β → Reader → Prop
  | some b, s => R b r s
  | none, s => s = r ∧ ∃ v, r.cursor.peek 0 = some v ∧ GoesOn place v

/-- A value that is read inside a definition is settled. -/
def Kept (place : Option (List TokenType)) (v : Value) : Prop :=
  place.isSome = true → v.Settled

/-- The end of a list of values at a place. -/
structure EndsIn (place : Option (List TokenType)) (ending : List Value → Read (Option β))
    (R : β → Reader → Reader → Prop) : Prop where
  meets : ∀ {read : List Value} {r : Reader}, TameReader place r → (∀ v ∈ read, Kept place v) →
    Read.Meets (Ended place R r) (ending read r)
  trans : ∀ {b : β} {r s t : Reader}, Follows place r s → R b s t → R b r t

/-- Lists of values come to an end from a reader. -/
structure HaltsLists (place : Option (List TokenType)) (r : Reader) : Prop where
  collect : ∀ {β : Type} {ending : List Value → Read (Option β)} {R : β → Reader → Reader → Prop},
    EndsIn place ending R → ∀ read : List Value, (∀ v ∈ read, Kept place v) →
      Halts (fun n => collect n ending read) r fun b s => R b r s
  arguments : ∀ outer, place = inside .closeParen outer → ∀ (name : Token) (state : CallState),
    Halts (fun n => arguments n name state) r fun _ s => Follows outer r s

/-- Lists of values come to an end wherever less effort is left. -/
def HaltsBehind (r : Reader) : Prop :=
  ∀ place s, TameReader place s → effort s.cursor.rest < effort r.cursor.rest → HaltsLists place s

theorem kept_inside {closer : TokenType} :
    Kept (inside closer place) v ↔ Kept place v := by
  simp [Kept, inside]

/-- A group ends at its closer. -/
theorem endsIn_blockEnd (place : Option (List TokenType)) (opener : Token) (closer : TokenType) :
    EndsIn (inside closer place) (blockEnd opener closer) fun b r s =>
      (∀ v ∈ b.contents, Kept place v) ∧ Follows place r s := by
  refine ⟨?_, fun hrs hst => ⟨hst.1, hrs.thenFollow hst.2⟩⟩
  intro read r h hread
  have hcontents : ∀ v ∈ read.reverse, Kept place v :=
    fun v hv => kept_inside.mp (hread v (List.mem_reverse.mp hv))
  unfold blockEnd
  rw [bind_ok (peek_run _ r)]
  cases hfront : r.cursor.peek 0 with
  | none => exact ⟨hcontents, .refl ⟨h.rest.close, h.frames⟩⟩
  | some v =>
      by_cases htype : v.hasType closer = true
      · simp only [htype, if_true]
        rw [bind_ok (next_of_peek hfront)]
        exact ⟨hcontents, (lowers_next h hfront ((h.front hfront).closed htype)).follows⟩
      · simp only [htype]
        refine ⟨rfl, v, hfront, ?_⟩
        intro awaited hawaited t ht
        obtain ⟨outer, _, rfl⟩ := Option.map_eq_some_iff.mp hawaited
        simpa [endsList, ht, Value.hasType] using htype

/-- A definition ends at a semicolon or a line feed. -/
theorem endsIn_definitionEnd :
    EndsIn (some []) definitionEnd fun values r s =>
      (∀ v ∈ values, v.Settled) ∧ Follows none r s := by
  refine ⟨?_, fun hrs hst => ⟨hst.1, hrs.thenFollow hst.2⟩⟩
  intro read r h hread
  have hvalues : ∀ v ∈ trimWhitespace read.reverse, v.Settled :=
    fun v hv => hread v (List.mem_reverse.mp (mem_of_mem_trimWhitespace hv)) rfl
  have hgoes {v : Value} (hv : ∀ t, v = .token t → endsDefinition t = false) :
      GoesOn (some []) v := by
    rintro awaited ⟨rfl⟩ t ht
    exact hv t ht
  unfold definitionEnd
  rw [bind_ok (peek_run _ r)]
  cases hfront : r.cursor.peek 0 with
  | none => exact ⟨hvalues, .refl h.leave⟩
  | some v =>
      cases v with
      | token t =>
          by_cases hends : endsDefinition t = true
          · simp only [hends, if_true]
            rw [bind_ok (next_of_peek hfront)]
            exact ⟨hvalues, (lowers_next h hfront (h.front hfront).leave.tail).follows⟩
          · simp only [hends]
            refine ⟨rfl, _, hfront, hgoes ?_⟩
            rintro _ ⟨rfl⟩
            simpa using hends
      | block opener contents closer => exact ⟨rfl, _, hfront, hgoes nofun⟩
      | call name args commas closer => exact ⟨rfl, _, hfront, hgoes nofun⟩
      | reference dollar name => exact ⟨rfl, _, hfront, hgoes nofun⟩

theorem halts_block_of (ih : HaltsBehind r) (h : TameReader place r)
    (hfront : r.cursor.peek 0 = some (.token t)) (hopen : GoesOn place (.token t))
    (hopener : t.type.isOpener = true) :
    Halts block r fun b s => (∀ v ∈ b.contents, Kept place v) ∧ Lowers place r s := by
  obtain ⟨closer, hpartner⟩ := Option.isSome_iff_exists.mp hopener
  refine .succ (fun n => by rw [block]) (.after (meets_opener h hfront hopen hpartner) ?_)
  rintro _ s ⟨rfl, hs⟩
  refine .nested fun _ => .inScope ?_
  have hin : TameReader (inside closer place) { s with
      nesting := s.nesting + 1, deepest := max s.deepest (s.nesting + 1),
      scopes := s.scopes.enter } :=
    { hs.tame.inScope with }
  refine ((ih _ _ hin hs.effort).collect (endsIn_blockEnd place t closer) []
    (List.forall_mem_nil _)).mono ?_
  rintro b u ⟨hb, hu⟩
  have hsu : Follows place s { u with scopes := u.scopes.exit, nesting := u.nesting - 1 } :=
    Proceeds.unnest hu.exit
  exact ⟨hb, hs.lowerThenFollow hsu⟩

theorem halts_call_of (ih : HaltsBehind r) (h : TameReader place r)
    (hfront : r.cursor.peek 0 = some (.token t)) (hopen : GoesOn place (.token t))
    (hfunction : t.type = .function) :
    Halts call r fun _ s => Lowers place r s := by
  have hs : Lowers (inside .closeParen place) r { r with cursor := r.cursor.next.2 } :=
    lowers_next h hfront ((h.front hfront).opened hopen (by rw [hfunction]; rfl))
  refine .succ (fun n => by rw [call]) ?_
  refine .of_run (fun n => bind_ok (consume_of_peek _ hfront hfunction)) ?_
  refine .nested fun _ => ?_
  have hin : TameReader (inside .closeParen place) { r with
      cursor := r.cursor.next.2, nesting := r.nesting + 1,
      deepest := max r.deepest (r.nesting + 1) } :=
    { hs.tame with }
  refine ((ih _ _ hin hs.effort).arguments place rfl t {}).mono ?_
  intro c u hu
  exact hs.lowerThenFollow hu.unnest

/-! ## Definitions and substitutions -/

theorem meets_skipInline (n : Nat) (h : TameReader (some []) r) :
    Read.Meets (fun _ s => Follows (some []) r s) (skipInline n r) := by
  induction n generalizing r with
  | zero => exact .refl h
  | succ n ih =>
      rw [skipInline, bind_ok (peek_run _ r)]
      cases hfront : r.cursor.peekToken 0 with
      | none => exact .refl h
      | some t =>
          by_cases hblank : t.type = .whitespace ∧ ¬ t.text.contains '\n'
          · have hpeek := Cursor.peek_of_peekToken hfront
            have hgoes : GoesOn (some []) (.token t) := by
              rintro _ ⟨rfl⟩ _ ⟨rfl⟩
              simp [endsList, endsDefinition, hblank.1, hblank.2]
            have hsingle : ∀ u, Value.token t = .token u → u.type.closer? = none := by
              rintro _ ⟨rfl⟩
              rw [hblank.1]
              rfl
            have hs := lowers_next h hpeek ((h.front hpeek).behind hgoes hsingle)
            simp only
            rw [if_pos hblank, bind_ok (next_of_peek hpeek)]
            exact (ih hs.tame).mono fun _ _ ht => hs.follows.thenFollow ht
          · simp only [hblank, if_false]
            exact .refl h

theorem halts_valueList_of (ih : HaltsBehind r) (h : TameReader (some []) s)
    (hlt : effort s.cursor.rest < effort r.cursor.rest) :
    Halts valueList s fun values u => (∀ v ∈ values, v.Settled) ∧ Follows none s u := by
  refine .succ (fun n => by rw [valueList]) ?_
  refine .peek (.after (meets_skipInline _ h) fun _ u hu => ?_)
  have hlists := ih _ u hu.tame (lt_of_le_of_lt hu.effort hlt)
  refine (hlists.collect endsIn_definitionEnd [] (List.forall_mem_nil _)).mono ?_
  rintro values w ⟨hvalues, hw⟩
  exact ⟨hvalues, hu.thenFollow hw⟩

theorem rest_skipWhitespace_tokens {c : Cursor} {ts : List Token} (h : c.rest = ts.map .token) :
    c.skipWhitespace.rest = (ts.dropWhile (·.type == .whitespace)).map .token := by
  rw [Cursor.rest_skipWhitespace, h, List.dropWhile_map]
  rfl

/-- The operator of a definition is the first token but for whitespace. -/
theorem peek_blankOffset_tokens {c : Cursor} {ts : List Token} (h : c.rest = ts.map .token) :
    c.peek c.blankOffset = (ts.dropWhile (·.type == .whitespace)).head?.map .token := by
  rw [Cursor.peek_blankOffset, Cursor.peek_eq_getElem?, rest_skipWhitespace_tokens h,
    ← List.head?_eq_getElem?, List.head?_map]

/-- A definition is read from its operator to the end of its value. -/
theorem halts_definition {Q : β → Reader → Prop} {k : Nat → List Value → Read β}
    (ih : HaltsBehind r) (h : TameReader none s) {ts value : List Token}
    {isOperator : Token → Bool} (hrest : s.cursor.rest = ts.map .token) (hsource : SettledSource ts)
    (hoperator : behindOperator? isOperator ts = some value) (hvalue : InDefinition [] value)
    (hlt : effort s.cursor.rest < effort r.cursor.rest)
    (hk : ∀ values u, (∀ v ∈ values, v.Settled) → Lowers none s u →
      Halts (fun n => k n values) u Q) :
    Halts (fun n => do
      skipWhitespace
      let _ ← next
      let values ← valueList n
      k n values) s Q := by
  obtain ⟨operator, hdrop, _⟩ := behindOperator?_eq_some.mp hoperator
  have hblank := rest_skipWhitespace_tokens hrest
  rw [hdrop, List.map_cons] at hblank
  have hsuffix : value <:+ ts :=
    (List.suffix_cons operator value).trans (hdrop ▸ List.dropWhile_suffix _)
  have hfront : s.cursor.skipWhitespace.peek 0 = some (.token operator) := by
    rw [Cursor.peek_eq_getElem?, hblank]
    rfl
  have hnext : s.cursor.skipWhitespace.next.2.rest = value.map .token := by
    rw [Cursor.rest_next, hblank, List.tail_cons]
  have htame : Tame (some []) s.cursor.skipWhitespace.next.2.rest := by
    rw [hnext]
    refine .of_source ⟨hsource.suffix hsuffix, ?_⟩
    rintro _ ⟨rfl⟩
    exact hvalue
  have hskipped : Follows none s { s with cursor := s.cursor.skipWhitespace } := by
    refine ⟨⟨?_, h.frames⟩, rfl, rfl, effort_skipWhitespace_le s.cursor⟩
    rw [Cursor.rest_skipWhitespace]
    exact h.rest.dropWhile _
  refine .after (P := fun _ u => u = { s with cursor := s.cursor.skipWhitespace }) rfl ?_
  rintro _ _ rfl
  have hbehind := hskipped.thenLower (lowers_next hskipped.tame hfront htame)
  refine .of_run (fun n => bind_ok (next_of_peek hfront)) ?_
  refine (halts_valueList_of ih hbehind.tame (lt_trans hbehind.effort hlt)).bind ?_
  rintro values u ⟨hvalues, hu⟩
  exact hk values u hvalues (hbehind.lowerThenFollow hu)

theorem settled_of_findVariable? {scopes : Scopes} {name : String} {vs : List Value}
    (h : ∀ f ∈ scopes.frames, f.Settled) (hvs : scopes.findVariable? name = some vs) :
    ∀ v ∈ vs, v.Settled := by
  obtain ⟨f, hf, hfind⟩ := List.exists_of_findSome?_eq_some hvs
  exact (h f hf).assigned _ (Bindings.mem_of_find? hfind)

theorem settled_of_findAlias? {scopes : Scopes} {name : String} {vs : List Value}
    (h : ∀ f ∈ scopes.frames, f.Settled) (hvs : scopes.findAlias? name = some vs) :
    ∀ v ∈ vs, v.Settled := by
  obtain ⟨f, hf, hfind⟩ := List.exists_of_findSome?_eq_some hvs
  exact (h f hf).aliases _ (Bindings.mem_of_find? hfind)

theorem settled_setVariable {scopes : Scopes} (h : ∀ f ∈ scopes.frames, f.Settled) (name : String)
    {values : List Value} (hvalues : ∀ v ∈ values, v.Settled) :
    ∀ f ∈ (scopes.setVariable name values).frames, f.Settled := by
  intro f hf
  rcases List.mem_cons.mp hf with rfl | hf
  · refine { h _ List.mem_cons_self with assigned := ?_ }
    intro e he
    rcases Bindings.of_mem_set he with rfl | he
    · exact hvalues
    · exact (h _ List.mem_cons_self).assigned e he
  · exact h f (List.mem_cons_of_mem _ hf)

theorem settled_setAlias {scopes : Scopes} (h : ∀ f ∈ scopes.frames, f.Settled) (name : String)
    {values : List Value} (hvalues : ∀ v ∈ values, v.Settled) :
    ∀ f ∈ (scopes.setAlias name values).frames, f.Settled := by
  intro f hf
  rcases List.mem_cons.mp hf with rfl | hf
  · refine { h _ List.mem_cons_self with aliases := ?_ }
    intro e he
    rcases Bindings.of_mem_set he with rfl | he
    · exact hvalues
    · exact (h _ List.mem_cons_self).aliases e he
  · exact h f (List.mem_cons_of_mem _ hf)

/-- Outside of mixins a reference is replaced by settled values, or it is a fault. -/
theorem meets_resolve (h : ∀ f ∈ r.scopes.frames, f.Settled) (ref : Reference) :
    Read.Meets (fun use s => use.value? = none ∧ ∃ values, (∀ v ∈ values, v.Settled) ∧
      s = { r with cursor := r.cursor.splice values }) (resolve ref r) := by
  have hparameter : r.scopes.isParameter ref.name.text = false := by
    rw [Scopes.isParameter, List.any_eq_false]
    intro f hf
    simp [(h f hf).parameters]
  have hcapturing : r.scopes.isCapturing = false := by
    rw [Scopes.isCapturing, List.any_eq_false]
    intro f hf
    simp [(h f hf).capture]
  unfold resolve
  rw [bind_ok (show look (·.scopes) r = .ok r.scopes r from rfl)]
  simp only [hparameter]
  cases hvalues : r.scopes.findVariable? ref.name.text with
  | some values => exact ⟨rfl, values, settled_of_findVariable? h hvalues, rfl⟩
  | none =>
      simp only [hcapturing]
      rintro ⟨⟩

/-- A reference in the source has been read. -/
theorem SourceAt.reference {dollar name : Token} {ts : List Token}
    (h : SourceAt place (dollar :: name :: ts)) (hopen : GoesOn place (.token dollar))
    (hdollar : dollar.isDelim "$" = true) (hname : name.type = .ident) :
    SourceAt place ts ∧ (place.isSome = true → definitionValue? (dollar :: name :: ts) = none) := by
  have hsingle : dollar.type.closer? = none := by
    rw [(Token.isDelim_iff.mp hdollar).1]
    rfl
  have hbehind := h.behind hopen hsingle
  refine ⟨hbehind.behind ?_ (by rw [hname]; rfl), ?_⟩
  · rintro awaited hawaited _ ⟨rfl⟩
    exact (hbehind.definition awaited hawaited).endsList_ident hname
  · intro hplace
    obtain ⟨awaited, hawaited⟩ := Option.isSome_iff_exists.mp hplace
    have hstays := (h.definition awaited hawaited).behind (hopen awaited hawaited dollar rfl)
    exact (reference_of_staysSettled hstays.1 hdollar).2

/-- A dollar sign with a name behind it belongs to the source. -/
theorem source_of_variable (h : TameReader place r)
    (hvariable : (r.cursor.checkDelim 0 "$" && r.cursor.check 1 .ident) = true) :
    ∃ dollar name ts, r.cursor.rest = .token dollar :: .token name :: ts.map .token ∧
      dollar.isDelim "$" = true ∧ name.type = .ident ∧ SourceAt place (dollar :: name :: ts) := by
  rw [Cursor.checkDelim, Cursor.check, Cursor.peek_eq_getElem?, Cursor.peek_eq_getElem?] at hvariable
  have htame := h.rest
  cases hrest : r.cursor.rest with
  | nil => simp [hrest] at hvariable
  | cons v vs =>
      rw [hrest] at hvariable htame
      simp only [List.getElem?_cons_zero, List.getElem?_cons_succ, Option.any_some,
        Bool.and_eq_true] at hvariable
      obtain ⟨dollar, ts, rfl, rfl, hsource⟩ := htame.source_of_dollar hvariable.1
      cases ts with
      | nil => simp at hvariable
      | cons name ts =>
          refine ⟨dollar, name, ts, rfl, hvariable.1, ?_, hsource⟩
          simpa [Value.hasType] using hvariable.2

/-- A variable is defined, or it is replaced by its value, which takes a dollar sign of the source. -/
theorem halts_variableUse_of (ih : HaltsBehind r) (h : TameReader place r)
    (hvariable : (r.cursor.checkDelim 0 "$" && r.cursor.check 1 .ident) = true)
    (hopen : ∀ v, r.cursor.peek 0 = some v → GoesOn place v) :
    Halts variableUse r fun use s => use.value? = none ∧ Lowers place r s := by
  obtain ⟨dollar, name, ts, hrest, hdollar, hname, hsource⟩ := source_of_variable h hvariable
  have hfront : r.cursor.peek 0 = some (.token dollar) := by
    rw [Cursor.peek_eq_getElem?, hrest]
    rfl
  have hsecond : r.cursor.next.2.peek 0 = some (.token name) := by
    rw [Cursor.peek_eq_getElem?, Cursor.rest_next, hrest]
    rfl
  have hbehind : r.cursor.next.2.next.2.rest = ts.map .token := by
    rw [Cursor.rest_next, Cursor.rest_next, hrest]
    rfl
  obtain ⟨hsource', hreference⟩ := hsource.reference (hopen _ hfront) hdollar hname
  have hs : Lowers place r { r with cursor := r.cursor.next.2.next.2 } := by
    refine ⟨⟨?_, h.frames⟩, rfl, rfl, ?_⟩
    · rw [hbehind]
      exact .of_source hsource'
    · rw [hbehind, hrest]
      exact lt_trans (effort_lt_cons _ _) (effort_lt_cons _ _)
  have hresolve : Halts (fun _ => resolve ⟨dollar, name⟩)
      { r with cursor := r.cursor.next.2.next.2 }
      fun use s => use.value? = none ∧ Lowers place r s := by
    refine .const ((meets_resolve hs.tame.frames _).mono ?_)
    rintro use _ ⟨huse, values, hvalues, rfl⟩
    refine ⟨huse, ⟨?_, h.frames⟩, rfl, rfl, ?_⟩
    · rw [Cursor.rest_splice]
      exact hs.tame.rest.splice hvalues
    · rw [Cursor.rest_splice, hbehind, hrest]
      have hreplaceable : (Value.token dollar).isReplaceable = true := by
        simp [Value.isReplaceable, hdollar]
      exact effort_splice_lt hreplaceable hvalues [.token name] _
  refine .succ (fun n => by rw [variableUse]) ?_
  refine .of_run (fun n => bind_ok (consumeDelim_of_peek _ hfront hdollar)) ?_
  refine .of_run (fun n => bind_ok (consume_of_peek _ hsecond hname)) ?_
  refine .peek (.peek ?_)
  simp only [Cursor.peekToken, peek_blankOffset_tokens hbehind]
  cases hdrop : ts.dropWhile (·.type == .whitespace) with
  | nil => exact hresolve
  | cons operator value =>
      by_cases hoperator : operator.type = .colon ∨ operator.isDelim "=" = true
      · have hassigns : behindOperator? Token.isAssignment ts = some value := by
          refine behindOperator?_eq_some.mpr ⟨operator, hdrop, ?_⟩
          simpa [Token.isAssignment] using hoperator
        have hvalue : definitionValue? (dollar :: name :: ts) = some value := by
          simpa [definitionValue?, hdollar, hname] using hassigns
        -- Inside of a definition there is no other one.
        cases place with
        | some awaited => rw [hreference rfl] at hvalue; cases hvalue
        | none =>
            simp only [List.head?_cons, Option.map_some, hoperator, if_true]
            refine halts_definition ih hs.tame hbehind hsource'.source hassigns
              (hsource.source.inDefinition hvalue) hs.effort ?_
            intro values u hvalues hu
            have hru := hs.follows.thenLower hu
            refine .const ⟨rfl, ⟨hru.tame.rest, ?_⟩, hru.limits, hru.nesting, hru.effort⟩
            exact settled_setVariable hru.tame.frames _ hvalues
      · simp only [List.head?_cons, Option.map_some, hoperator, if_false]
        exact hresolve

/-! ## Values -/

/-- A value lowers the effort, and inside a definition it is settled. -/
theorem halts_value_of (ih : HaltsBehind r) (h : TameReader place r)
    (hfront : r.cursor.peek 0 = some v) (hopen : GoesOn place v) :
    Halts value r fun found s => (∀ u ∈ found, Kept place u) ∧ Lowers place r s := by
  have htame := h.front hfront
  refine .succ (fun n => by rw [value]) (.peek ?_)
  simp only [hfront]
  have hgroup (hv : ∀ t, v ≠ .token t) :
      Halts (fun _ => do remember v; next) r
        fun found s => (∀ u ∈ found, Kept place u) ∧ Lowers place r s := by
    have hsettled : v.Settled := by
      rcases htame.cases with ⟨hsettled, _⟩ | ⟨t, _, rfl, _⟩
      · exact hsettled
      · exact (hv t rfl).elim
    refine .const ((meets_pass h hfront (htame.behind hopen fun t ht => (hv t ht).elim)).mono ?_)
    rintro _ s ⟨rfl, hs⟩
    exact ⟨fun u hu _ => by cases hu; exact hsettled, hs⟩
  cases v with
  | token t =>
      by_cases hopener : t.type.isOpener = true
      · simp only [hopener, if_true]
        refine (halts_block_of ih h hfront hopen hopener).bind fun b s hb => .pure ⟨?_, hb.2⟩
        rintro _ ⟨rfl⟩ hplace
        exact .block fun u hu => hb.1 u hu hplace
      · by_cases hfunction : t.type = .function
        · simp only [hfunction, if_true]
          refine (halts_call_of ih h hfront hopen hfunction).bind fun c s hc => .pure ⟨?_, hc⟩
          rintro _ ⟨rfl⟩ _
          exact .call
        · simp only [hopener, hfunction, if_false]
          refine .peek ?_
          by_cases hvariable : (r.cursor.checkDelim 0 "$" && r.cursor.check 1 .ident) = true
          · simp only [hvariable, if_true]
            refine (halts_variableUse_of ih h hvariable ?_).bind ?_
            · intro u hu
              rw [hfront] at hu
              cases hu
              exact hopen
            · rintro use s ⟨huse, hs⟩
              refine .pure ⟨?_, hs⟩
              rw [huse]
              rintro _ ⟨⟩
          · have hsingle : ∀ u, Value.token t = .token u → u.type.closer? = none := by
              rintro _ ⟨rfl⟩
              exact TokenType.closer?_eq_none_iff.mpr ⟨by simpa using hopener, hfunction⟩
            simp only [hvariable]
            refine .const ((meets_next h hfront (htame.behind hopen hsingle)).mono ?_)
            rintro _ s ⟨rfl, hs⟩
            refine ⟨?_, hs⟩
            rintro _ ⟨rfl⟩ hplace
            refine htame.settled hopen hsingle ?_ hplace
            simpa [Cursor.checkDelim, Cursor.check, Cursor.peek_eq_getElem?, rest_of_peek hfront,
              List.head?_eq_getElem?] using hvariable
  | block opener contents closer => exact hgroup (by rintro _ ⟨⟩)
  | call name args commas closer => exact hgroup (by rintro _ ⟨⟩)
  | reference dollar name =>
      rcases htame.cases with ⟨hsettled, _⟩ | ⟨t, _, ht, _⟩
      · cases hsettled
      · cases ht

theorem halts_collect_of (ih : HaltsBehind r) (h : TameReader place r)
    {ending : List Value → Read (Option β)} {R : β → Reader → Reader → Prop}
    (hending : EndsIn place ending R) (read : List Value) (hread : ∀ v ∈ read, Kept place v) :
    Halts (fun n => collect n ending read) r fun b s => R b r s := by
  refine .succ (fun n => by rw [collect]) (.after (hending.meets h hread) ?_)
  intro found s hfound
  cases found with
  | some b => exact .pure hfound
  | none =>
      obtain ⟨rfl, v, hfront, hopen⟩ := hfound
      refine (halts_value_of ih h hfront hopen).bind ?_
      rintro found t ⟨hkept, ht⟩
      have hagain {read : List Value} (hread : ∀ v ∈ read, Kept place v) :
          Halts (fun n => collect n ending read) t fun b u => R b s u :=
        ((ih _ t ht.tame ht.effort).collect hending read hread).mono fun b u hu =>
          hending.trans ht.follows hu
      cases found with
      | none => exact hagain hread
      | some u =>
          refine hagain ?_
          intro w hw
          rcases List.mem_cons.mp hw with rfl | hw
          · exact hkept w rfl
          · exact hread w hw

theorem halts_arguments_of (ih : HaltsBehind r) (h : TameReader (inside .closeParen outer) r)
    (name : Token) (state : CallState) :
    Halts (fun n => arguments n name state) r fun _ s => Follows outer r s := by
  have hagain {s : Reader} (hs : Lowers (inside .closeParen outer) r s) (state : CallState) :
      Halts (fun n => arguments n name state) s fun _ t => Follows outer r t :=
    ((ih _ s hs.tame hs.effort).arguments outer rfl name state).mono fun _ t ht =>
      hs.follows.thenFollow ht
  refine .succ (fun n => by rw [arguments]) (.peek ?_)
  cases hfront : r.cursor.peek 0 with
  | none => exact .pure (.refl ⟨h.rest.close, h.frames⟩)
  | some v =>
      by_cases hparen : v.hasType .closeParen = true
      · simp only [hparen, if_true]
        refine .after (meets_next h hfront ((h.front hfront).closed hparen)) ?_
        rintro _ s ⟨_, hs⟩
        exact .pure hs.follows
      · have hopen : GoesOn (inside .closeParen outer) v := by
          intro awaited hawaited t ht
          obtain ⟨rest, _, rfl⟩ := Option.map_eq_some_iff.mp hawaited
          simpa [endsList, ht, Value.hasType] using hparen
        by_cases hcomma : v.hasType .comma = true
        · have hsingle : ∀ t, v = .token t → t.type.closer? = none := by
            rintro t rfl
            rw [show t.type = .comma by simpa [Value.hasType] using hcomma]
            rfl
          simp only [hparen, hcomma, if_true]
          refine .after (meets_next h hfront ((h.front hfront).behind hopen hsingle)) ?_
          rintro _ s ⟨_, hs⟩
          exact hagain hs _
        · simp only [hparen, hcomma]
          refine (halts_value_of ih h hfront hopen).bind ?_
          rintro found s ⟨_, hs⟩
          cases found with
          | none => exact hagain hs _
          | some u => exact hagain hs _

/-- Every list of values comes to an end, by induction on the effort. -/
theorem haltsLists (h : TameReader place r) :
    HaltsLists place r := by
  induction heffort : effort r.cursor.rest using WellFoundedLT.induction generalizing place r with
  | ind _ ih =>
      have hbehind : HaltsBehind r := by
        intro place s hs hlt
        exact ih _ (heffort ▸ hlt) hs rfl
      refine ⟨halts_collect_of hbehind h, ?_⟩
      rintro outer rfl name state
      exact halts_arguments_of hbehind h name state

theorem haltsBehind (r : Reader) :
    HaltsBehind r :=
  fun _ _ hs _ => haltsLists hs

theorem goesOn_none (v : Value) :
    GoesOn none v :=
  nofun

theorem halts_variableUse (h : TameReader none r)
    (hvariable : (r.cursor.checkDelim 0 "$" && r.cursor.check 1 .ident) = true) :
    Halts variableUse r fun _ s => Lowers none r s :=
  (halts_variableUse_of (haltsBehind r) h hvariable fun v _ => goesOn_none v).mono fun _ _ hs => hs.2

theorem halts_value (h : TameReader none r) (hfront : r.cursor.peek 0 = some v) :
    Halts value r fun _ s => Lowers none r s :=
  (halts_value_of (haltsBehind r) h hfront (goesOn_none v)).mono fun _ _ hs => hs.2

end Values

end Substitution
end Cascade
