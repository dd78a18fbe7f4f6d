import Cascade.Proofs.SelectorValues

/-!
# Where faults are found

All that reading looks at was made of the tokens of the source, and so a fault is
found at the place of one of them.  Faults that say that a reader was called at
the wrong place are never found.

**Method.**  `P` is a property of the tokens that are read.  `Value.AllTokens P`
passes it on to values, and a place is `Placed` if it is that of a token with `P`.
`Scan.Careful P grouped x R` is a triple for scans: over sound values, `x` ends
with a result that has `R` or at a fault that is `Sound`.  If `grouped`, the values
are those that a reader has grouped, with no bracket left open.

**Results.**
* `Selector.sound_parse`: the selectors of a prelude, or the fault in it.
* `exists_splitImportant`: in grouped values no closer can be the wrong one.
-/

namespace Cascade

/-! ## Values made of tokens -/

/-- The token has `P` and is a bracket.  Where `P` says nothing, blocks may be opened by anything. -/
structure Token.OpensBlock (P : Token → Prop) (t : Token) : Prop where
  has : P t
  isBracket : t.type.isOpener = true ∨ ∀ u, P u

/-- All tokens that the value is made of have `P`, and blocks are opened by brackets. -/
inductive Value.AllTokens (P : Token → Prop) : Value → Prop
  | token {t : Token} : P t → AllTokens P (.token t)
  | block {opener : Token} {contents : List Value} {closer : Option Token} :
      opener.OpensBlock P → (∀ v ∈ contents, AllTokens P v) → (∀ t ∈ closer, P t) →
      AllTokens P (.block opener contents closer)
  | call {name : Token} {args : List (List Value)} {commas : List Token} {closer : Option Token} :
      P name → (∀ arg ∈ args, ∀ v ∈ arg, AllTokens P v) → (∀ t ∈ commas, P t) →
      (∀ t ∈ closer, P t) → AllTokens P (.call name args commas closer)
  | reference {dollar name : Token} : P dollar → P name → AllTokens P (.reference dollar name)

/-- The value is no token that opens a group. -/
def Value.IsWhole : Value → Prop
  | .token t => t.type.closer? = none
  | _ => True

/-- The value is made of tokens with `P`; among grouped values it opens nothing. -/
structure Value.Sound (P : Token → Prop) (grouped : Bool) (v : Value) : Prop where
  tokens : v.AllTokens P
  whole : grouped = true → v.IsWhole

/-- The place is that of a token with `P`. -/
def Placed (P : Token → Prop) (p : Position) : Prop :=
  ∃ t, P t ∧ t.position = p

section Values

variable {P : Token → Prop} {grouped : Bool} {v : Value} {vs : List Value}

theorem Placed.of_token {t : Token} (h : P t) :
    Placed P t.position :=
  ⟨t, h, rfl⟩

theorem Value.AllTokens.start (h : v.AllTokens P) :
    Placed P v.start := by
  cases h with
  | token ht => exact .of_token ht
  | block ho => exact .of_token ho.has
  | call hn => exact .of_token hn
  | reference hd => exact .of_token hd

/-- The token that a fault shows for a value stands at its place. -/
theorem Value.witness_position (v : Value) :
    v.witness.position = v.start := by
  cases v <;> rfl

theorem Value.AllTokens.of_token {t : Token} (h : (Value.token t).AllTokens P) :
    P t := by
  cases h
  assumption

theorem Value.AllTokens.sound (h : v.AllTokens P) :
    v.Sound P false :=
  ⟨h, fun hfalse => by cases hfalse⟩

/-- A value of a type is a token. -/
theorem Value.AllTokens.witness {type : TokenType} (h : v.AllTokens P)
    (htype : v.hasType type = true) :
    P v.witness := by
  cases h with
  | token ht => exact ht
  | block => cases htype
  | call => cases htype
  | reference => cases htype

end Values

/-! ## Causes and diagnostics -/

/-- The cause is a fault of the stylesheet: not that a value or a bracket stood where a reader had
made sure that it does not. -/
def Cause.isGenuine : Cause → Bool
  | .shape _ _ => false
  | .noBracket => false
  | .notOpener _ => false
  | .mismatchedCloser _ => false
  | .remark _ _ => false
  | _ => true

/-- A fault at no place at all.  It has no token, and it is that of an empty selector or of blocks
that are nested too deeply. -/
structure Diagnostic.Unplaced (d : Diagnostic) : Prop where
  position : d.position = Position.none
  token : d.token = none
  cause : d.cause = .emptySelector ∨ ∃ limit, d.cause = .nestingLimit limit

/-- A genuine fault at the place of a token with `P`, or at none. -/
structure Diagnostic.Sound (P : Token → Prop) (d : Diagnostic) : Prop where
  genuine : d.cause.isGenuine = true
  position : Placed P d.position ∨ d.Unplaced

theorem Diagnostic.sound_atToken {P : Token → Prop} {cause : Cause} {t : Token}
    (hcause : cause.isGenuine = true) (ht : P t) :
    (Diagnostic.atToken cause t).Sound P :=
  ⟨hcause, .inl (.of_token ht)⟩

/-! ## Cursors -/

/-- A cursor over sound values, behind a place where a token stands. -/
structure Cursor.Sound (P : Token → Prop) (grouped : Bool) (c : Cursor) : Prop where
  values : c.All (Value.Sound P grouped)
  last : Placed P c.last

namespace Cursor

variable {P : Token → Prop} {grouped : Bool} {c : Cursor} {vs : List Value}

theorem sound_ofValues (n : Nat) (hne : vs ≠ []) (hvs : ∀ v ∈ vs, v.Sound P grouped) :
    (ofValues vs n).Sound P grouped := by
  refine ⟨(all_ofValues n).mpr hvs, ?_⟩
  obtain ⟨v, rest, rfl⟩ := List.exists_cons_of_ne_nil hne
  exact (hvs v List.mem_cons_self).tokens.start

theorem Sound.peek {n : Nat} {v : Value} (h : c.Sound P grouped) (hv : c.peek n = some v) :
    v.Sound P grouped :=
  h.values.peek hv

theorem Sound.peekToken {n : Nat} {t : Token} (h : c.Sound P grouped)
    (ht : c.peekToken n = some t) :
    P t := by
  unfold Cursor.peekToken at ht
  split at ht
  · next hpeek =>
      cases ht
      exact (h.peek hpeek).tokens.of_token
  · cases ht

theorem Sound.next (h : c.Sound P grouped) :
    c.next.2.Sound P grouped := by
  refine ⟨h.values.next, ?_⟩
  have hfront := c.next_fst
  unfold Cursor.next at hfront ⊢
  split at hfront
  · exact (h.values _ (List.mem_of_mem_head? hfront.symm)).tokens.start
  · exact h.last

theorem placed_skipBlanks {items : List Item} (names : List String) {last : Position}
    (hitems : ∀ v ∈ items.filterMap Item.value?, v.AllTokens P) (hlast : Placed P last) :
    Placed P (skipBlanks items names last).2.2 := by
  fun_induction skipBlanks items names last with
  | case1 => exact hlast
  | case2 v rest names last hblank ih =>
      obtain ⟨hv, hrest⟩ : v.AllTokens P ∧ ∀ u ∈ rest.filterMap Item.value?, u.AllTokens P :=
        List.forall_mem_cons.mp hitems
      exact ih hrest hv.start
  | case3 => exact hlast
  | case4 m rest names last hblank ih => exact ih hitems hlast
  | case5 => exact hlast

theorem Sound.skipWhitespace (h : c.Sound P grouped) :
    c.skipWhitespace.Sound P grouped :=
  ⟨h.values.skipWhitespace, placed_skipBlanks c.expansions (fun v hv => (h.values v hv).tokens) h.last⟩

/-- A fault at a value is found at its first token, a fault at the end behind the last value. -/
theorem Sound.faultAt (h : c.Sound P grouped) (n : Nat) {cause : Cause}
    (hcause : cause.isGenuine = true) :
    (c.faultAt n cause).Sound P := by
  refine ⟨hcause, .inl ?_⟩
  unfold Cursor.faultAt Diagnostic.located
  cases hpeek : c.peek n with
  | none => exact h.last
  | some v =>
      simp only [Option.map_some, Option.getD_some, v.witness_position]
      exact (h.peek hpeek).tokens.start

end Cursor

/-! ## Scans -/

namespace Scan

variable {α β : Type} {P : Token → Prop} {grouped : Bool}

/-- The outcome is a result with `R` at a sound cursor, or a sound fault. -/
def Safe (P : Token → Prop) (grouped : Bool) (R : α → Prop) :
    EStateM.Result Diagnostic Cursor α → Prop
  | .ok a c => c.Sound P grouped ∧ R a
  | .error d _ => d.Sound P

/-- From every sound cursor the scan has a safe outcome. -/
def Careful (P : Token → Prop) (grouped : Bool) (x : Scan α) (R : α → Prop) : Prop :=
  ∀ c, c.Sound P grouped → Safe P grouped R (x c)

theorem Careful.pure {a : α} {R : α → Prop} (h : R a) :
    Careful P grouped (Pure.pure a : Scan α) R :=
  fun _ hc => ⟨hc, h⟩

theorem bind_safe {x : Scan α} {f : α → Scan β} {R : α → Prop} {S : β → Prop} {c : Cursor}
    (hx : Safe P grouped R (x c))
    (hf : ∀ a d, x c = .ok a d → d.Sound P grouped → R a → Safe P grouped S (f a d)) :
    Safe P grouped S ((x >>= f) c) := by
  change Safe P grouped S (EStateM.bind x f c)
  unfold EStateM.bind
  cases hr : x c with
  | ok a d =>
      rw [hr] at hx
      exact hf a d hr hx.1 hx.2
  | error e d =>
      rw [hr] at hx
      exact hx

theorem Careful.bind {x : Scan α} {f : α → Scan β} {R : α → Prop} {S : β → Prop}
    (hx : Careful P grouped x R) (hf : ∀ a, R a → Careful P grouped (f a) S) :
    Careful P grouped (x >>= f) S :=
  fun c hc => bind_safe (hx c hc) fun a d _ hd ha => hf a ha d hd

theorem careful_look (f : Cursor → α) :
    Careful P grouped (look f) fun _ => True :=
  fun _ hc => ⟨hc, trivial⟩

theorem careful_peek (n : Nat) :
    Careful P grouped (look (·.peek n)) fun front => ∀ v, front = some v → v.Sound P grouped :=
  fun _ hc => ⟨hc, fun _ hv => hc.peek hv⟩

theorem careful_peekToken (n : Nat) :
    Careful P grouped (look (·.peekToken n)) fun front => ∀ t, front = some t → P t :=
  fun _ hc => ⟨hc, fun _ ht => hc.peekToken ht⟩

theorem careful_next :
    Careful P grouped next fun front => ∀ v, front = some v → v.Sound P grouped := by
  refine fun c hc => ⟨hc.next, fun v hv => hc.values v ?_⟩
  rw [c.next_fst] at hv
  exact List.mem_of_mem_head? hv

theorem careful_skipWhitespace :
    Careful P grouped skipWhitespace fun _ => True :=
  fun _ hc => ⟨hc.skipWhitespace, trivial⟩

theorem careful_failAt (n : Nat) {cause : Cause} (hcause : cause.isGenuine = true) {R : α → Prop} :
    Careful P grouped (failAt n cause) R :=
  fun _ hc => hc.faultAt n hcause

theorem careful_throw {d : Diagnostic} (hd : d.Sound P) {R : α → Prop} :
    Careful P grouped (throw d) R :=
  fun _ _ => hd

theorem careful_consume (type : TokenType) (what : String) :
    Careful P grouped (consume type what) fun t => P t ∧ t.type = type := by
  intro c hc
  unfold consume
  split
  · next t hpeek =>
      split
      · next htype => exact ⟨hc.next, hc.peekToken hpeek, htype⟩
      · exact hc.faultAt 0 rfl
  · exact hc.faultAt 0 rfl

theorem careful_consumeDelim (text what : String) :
    Careful P grouped (consumeDelim text what) P := by
  intro c hc
  unfold consumeDelim
  split
  · next t hpeek =>
      split
      · exact ⟨hc.next, hc.peekToken hpeek⟩
      · exact hc.faultAt 0 rfl
  · exact hc.faultAt 0 rfl

/-! ## Blocks as they stand -/

/-- Where a bracket stands, it is read with its closer. -/
theorem opener_safe {c : Cursor} {t : Token} (hc : c.Sound P grouped)
    (hpeek : c.peekToken 0 = some t) (hopener : t.type.isOpener = true) :
    Safe P grouped (fun found => found.1 = t) (opener c) := by
  unfold opener
  refine bind_safe (R := fun front => front = some t) ⟨hc, hpeek⟩ ?_
  rintro _ d - hd rfl
  cases hpartner : t.type.partner? with
  | none =>
      rw [TokenType.isOpener, hpartner] at hopener
      cases hopener
  | some closer =>
      dsimp only
      rw [hpartner]
      exact Careful.bind careful_next (fun _ _ => .pure rfl) d hd

theorem careful_rawContents {opener : Token} (closer : TokenType) (hopener : opener.OpensBlock P) :
    ∀ (n : Nat) (due : List TokenType) (read : List Value), (∀ v ∈ read, v.AllTokens P) →
      Careful P grouped (rawContents opener closer n due read) fun b =>
        b.opener = opener ∧ b.toValue.AllTokens P
  | 0, _, read, hread =>
      .pure ⟨rfl, .block hopener (fun v hv => hread v (List.mem_reverse.mp hv)) (by simp)⟩
  | n + 1, due, read, hread => by
      have hdone : ∀ v ∈ read.reverse, v.AllTokens P := fun v hv => hread v (List.mem_reverse.mp hv)
      rw [rawContents]
      refine .bind careful_next fun front hfront => ?_
      have hmore (v : Value) (hv : front = some v) : ∀ u ∈ v :: read, u.AllTokens P :=
        List.forall_mem_cons.mpr ⟨(hfront v hv).tokens, hread⟩
      split
      · exact .pure ⟨rfl, .block hopener hdone (by simp)⟩
      · split
        · refine .pure ⟨rfl, .block hopener hdone ?_⟩
          rintro _ ⟨rfl⟩
          exact (hfront _ rfl).tokens.of_token
        · exact careful_rawContents closer hopener n _ _ (hmore _ rfl)
      · exact careful_rawContents closer hopener n _ _ (hmore _ rfl)

/-- Where a bracket stands, the block that it opens is read as it stands. -/
theorem rawBlock_safe {c : Cursor} {t : Token} (hc : c.Sound P grouped)
    (hpeek : c.peekToken 0 = some t) (hopener : t.type.isOpener = true) :
    Safe P grouped (fun b => b.opener = t ∧ b.toValue.AllTokens P) (rawBlock c) := by
  unfold rawBlock
  refine bind_safe (opener_safe hc hpeek hopener) ?_
  rintro ⟨_, closer⟩ d - hd rfl
  refine Careful.bind (careful_look _) (fun _ _ => ?_) d hd
  exact careful_rawContents closer ⟨hc.peekToken hpeek, .inl hopener⟩ _ _ _ nofun

/-! ## Selectors -/

theorem careful_qualifier :
    Careful P grouped qualifier fun _ => True := by
  unfold qualifier
  refine .bind (careful_look _) fun front _ => .bind (careful_look _) fun second _ => ?_
  refine .bind (careful_look _) fun named _ => ?_
  split
  · exact .bind careful_next fun _ _ => .bind careful_next fun _ _ => .pure trivial
  · refine .bind (careful_look _) fun bare _ => ?_
    split
    · exact .bind careful_next fun _ _ => .pure trivial
    · exact .pure trivial

/-- The name of a type selector is an identifier. -/
def IsIdent (P : Token → Prop) : TypeSelector → Prop
  | .named _ ident => P ident ∧ ident.type = .ident
  | .universal _ _ => True

theorem careful_typeSelector :
    Careful P grouped typeSelector fun found => ∀ type, found = some type → IsIdent P type := by
  have hnone : Careful P grouped (Pure.pure none : Scan (Option TypeSelector))
      fun found => ∀ type, found = some type → IsIdent P type :=
    .pure fun _ h => by cases h
  unfold typeSelector
  refine .bind careful_qualifier fun q _ => .bind (careful_peekToken 0) fun front hfront => ?_
  split
  · split
    · next hident =>
        refine .bind careful_next fun _ _ => .pure ?_
        rintro _ ⟨rfl⟩
        exact ⟨hfront _ rfl, hident⟩
    · split
      · refine .bind careful_next fun _ _ => .pure ?_
        rintro _ ⟨rfl⟩
        trivial
      · split
        · exact careful_failAt 0 rfl
        · exact hnone
  · split
    · exact careful_failAt 0 rfl
    · exact hnone

theorem careful_matcher :
    Careful P grouped matcher fun _ => True := by
  unfold matcher
  refine .bind (careful_look _) fun front _ => ?_
  split
  · split
    · split
      · refine .bind careful_next fun _ _ => ?_
        exact .bind (careful_consumeDelim _ _) fun _ _ => .pure trivial
      · split
        · exact .bind careful_next fun _ _ => .pure trivial
        · exact .pure trivial
    · exact .pure trivial
  · exact .pure trivial

theorem careful_attributeValue :
    Careful P grouped attributeValue fun _ => True := by
  unfold attributeValue
  refine .bind careful_skipWhitespace fun _ _ => .bind (careful_look _) fun front _ => ?_
  split
  · exact careful_failAt 0 rfl
  · next v =>
      split
      · have hend (modifier : Option Token) :
            Careful P grouped (do skipWhitespace; return (v, modifier) : Scan (Token × Option Token))
              fun _ => True :=
          .bind careful_skipWhitespace fun _ _ => .pure trivial
        have hgo (modifier : Option Token) :
            Careful P grouped (Pure.pure modifier : Scan (Option Token)) fun _ => True :=
          .pure trivial
        refine .bind careful_next fun _ _ => .bind careful_skipWhitespace fun _ _ => ?_
        refine .bind (careful_look _) fun second _ => ?_
        dsimp only
        split
        · exact .bind (hgo _) fun _ _ => hend _
        · split
          · split
            · exact .bind careful_next fun _ _ => .bind (hgo _) fun _ _ => hend _
            · exact .bind (careful_failAt 0 rfl (R := fun _ => True)) fun _ _ => hend _
          · exact .bind (hgo _) fun _ _ => hend _
      · exact careful_failAt 0 rfl

theorem careful_attributeSelector (opener : Token) :
    Careful P grouped (attributeSelector opener) fun _ => True := by
  unfold attributeSelector
  refine .bind careful_skipWhitespace fun _ _ => .bind careful_qualifier fun q _ => ?_
  refine .bind (careful_consume _ _) fun name _ => .bind careful_skipWhitespace fun _ _ => ?_
  refine .bind careful_matcher fun m _ => ?_
  have hend (value modifier : Option Token) :
      Careful P grouped (do
        let closer ← consume .closeBracket "Expected ']'"
        return ⟨opener, q, name, m, value, modifier, closer⟩ : Scan Attribute) fun _ => True :=
    .bind (careful_consume _ _) fun _ _ => .pure trivial
  have hgo (found : Option Token × Option Token) :
      Careful P grouped (Pure.pure found : Scan (Option Token × Option Token)) fun _ => True :=
    .pure trivial
  dsimp only
  split
  · refine .bind careful_attributeValue fun found _ => ?_
    exact .bind (hgo _) fun _ _ => hend _ _
  · exact .bind (hgo _) fun _ _ => hend _ _

/-- The name of a function among grouped values has its arguments with it. -/
theorem careful_pseudoClass :
    Careful P true pseudoClass fun _ => True := by
  unfold pseudoClass
  refine .bind (careful_consume _ _) fun colon _ => .bind (careful_peek 0) fun front hfront => ?_
  split
  · next t =>
      split
      · exact .bind careful_next fun _ _ => .pure trivial
      · split
        · next hfunction =>
            have hwhole : t.type.closer? = none := (hfront _ rfl).whole rfl
            rw [hfunction] at hwhole
            cases hwhole
        · exact careful_failAt 0 rfl
  · split
    · exact .bind careful_next fun _ _ => .pure trivial
    · cases (hfront _ rfl).tokens with
      | call hname => exact careful_throw (Diagnostic.sound_atToken rfl hname)
  · exact careful_failAt 0 rfl

theorem careful_inside {x : Scan α} {R : α → Prop} {vs : List Value} (hne : vs ≠ [])
    (hvs : ∀ v ∈ vs, v.AllTokens P) (hx : Careful P false x R) :
    Careful P grouped (inside vs x) R := by
  intro c hc
  have hsafe := hx _ (Cursor.sound_ofValues 0 hne fun v hv => (hvs v hv).sound)
  unfold inside
  split
  · next hok =>
      rw [hok] at hsafe
      exact ⟨hc, hsafe.2⟩
  · next herror =>
      rw [herror] at hsafe
      exact hsafe

theorem careful_subclass :
    Careful P true subclass fun _ => True := by
  unfold subclass
  refine .bind (careful_peek 0) fun front hfront => ?_
  split
  · split
    · split
      · exact .bind careful_next fun _ _ => .pure trivial
      · exact careful_failAt 0 rfl
    · split
      · refine .bind careful_next fun _ _ => ?_
        exact .bind (careful_consume _ _) fun _ _ => .pure trivial
      · split
        · exact .bind careful_next fun _ _ => .pure trivial
        · split
          · refine .bind careful_next fun _ _ => ?_
            exact .bind (careful_attributeSelector _) fun _ _ => .pure trivial
          · refine .bind (careful_look _) fun double _ => ?_
            split
            · exact .bind careful_pseudoClass fun _ _ => .pure trivial
            · exact .pure trivial
  · next opener contents closer =>
      cases (hfront _ rfl).tokens with
      | block hopener hcontents hcloser =>
          split
          · split
            · exact careful_throw ⟨rfl, .inl (.of_token hopener.has)⟩
            · next closer =>
                have hvs : ∀ v ∈ contents ++ [.token closer], v.AllTokens P :=
                  List.forall_mem_append.mpr ⟨hcontents, by simpa using .token (hcloser _ rfl)⟩
                refine .bind careful_next fun _ _ => ?_
                exact .bind (careful_inside (by simp) hvs (careful_attributeSelector _))
                  fun _ _ => .pure trivial
          · exact .pure trivial
  · exact .pure trivial

theorem careful_subclasses :
    ∀ n : Nat, Careful P true (subclasses n) fun _ => True
  | 0 => .pure trivial
  | n + 1 => by
      rw [subclasses]
      refine .bind careful_subclass fun found _ => ?_
      split
      · exact .pure trivial
      · exact .bind (careful_subclasses n) fun _ _ => .pure trivial

theorem careful_pseudoClasses :
    ∀ n : Nat, Careful P true (pseudoClasses n) fun _ => True
  | 0 => .pure trivial
  | n + 1 => by
      rw [pseudoClasses]
      refine .bind (careful_look _) fun more _ => ?_
      split
      · refine .bind careful_pseudoClass fun _ _ => ?_
        exact .bind (careful_pseudoClasses n) fun _ _ => .pure trivial
      · exact .pure trivial

theorem careful_pseudoElements :
    ∀ n : Nat, Careful P true (pseudoElements n) fun _ => True
  | 0 => .pure trivial
  | n + 1 => by
      rw [pseudoElements]
      refine .bind (careful_look _) fun more _ => ?_
      split
      · refine .bind (careful_consume _ _) fun colon _ => .bind careful_pseudoClass fun element _ => ?_
        refine .bind (careful_look _) fun length _ => .bind (careful_pseudoClasses _) fun _ _ => ?_
        exact .bind (careful_pseudoElements n) fun _ _ => .pure trivial
      · exact .pure trivial

/-- A compound that selects something, with an identifier for the name of its element. -/
structure IsSolid (P : Token → Prop) (c : Compound) : Prop where
  nonempty : c.isEmpty = false
  type : ∀ t, c.type = some t → IsIdent P t

theorem careful_compound :
    Careful P true compound (IsSolid P) := by
  unfold compound
  refine .bind careful_typeSelector fun type htype => .bind (careful_look _) fun length _ => ?_
  refine .bind (careful_subclasses _) fun conditions _ => ?_
  refine .bind (careful_look _) fun length _ => .bind (careful_pseudoElements _) fun pseudos _ => ?_
  dsimp only
  split
  · exact .bind (careful_look _) fun _ _ => careful_failAt 0 rfl
  · next hempty => exact .pure ⟨by simpa using hempty, htype⟩

theorem careful_combinator (afterBlank : Bool) :
    Careful P grouped (combinator afterBlank) fun _ => True := by
  have hsign (t : Token) (kind : Combinator) :
      Careful P grouped (combinator.sign t kind) fun _ => True :=
    .bind careful_next fun _ _ => .pure trivial
  unfold combinator
  refine .bind (careful_look _) fun front _ => ?_
  split
  · split
    · split
      · exact hsign _ _
      · exact hsign _ _
      · exact hsign _ _
      · refine .bind (careful_look _) fun names _ => ?_
        split
        · exact .pure trivial
        · refine .bind careful_next fun _ _ => ?_
          exact .bind (careful_consumeDelim _ _) fun _ _ => .pure trivial
      · exact .pure trivial
    · exact .pure trivial
  · exact .pure trivial

theorem careful_parts :
    ∀ n : Nat, Careful P true (parts n) fun _ => True
  | 0 => .pure trivial
  | n + 1 => by
      rw [parts]
      refine .bind (careful_look _) fun atEnd _ => ?_
      split
      · exact .pure trivial
      · refine .bind (careful_look _) fun blank _ => .bind careful_skipWhitespace fun _ _ => ?_
        refine .bind (careful_combinator _) fun found _ => ?_
        split
        · exact .bind (careful_look _) fun _ _ => careful_failAt 0 rfl
        · refine .bind careful_skipWhitespace fun _ _ => .bind (careful_look _) fun atEnd _ => ?_
          split
          · exact careful_failAt 0 rfl
          · exact .bind careful_compound fun _ _ => .bind (careful_parts n) fun _ _ => .pure trivial

end Scan

/-- The selector starts with a solid compound. -/
def ComplexSelector.Solid (P : Token → Prop) (s : ComplexSelector) : Prop :=
  ∃ first rest, s = first :: rest ∧ Scan.IsSolid P first.compound

theorem Scan.careful_complexSelector {P : Token → Prop} :
    Careful P true complexSelector (ComplexSelector.Solid P) := by
  unfold complexSelector
  refine .bind careful_compound fun first hfirst => .bind (careful_look _) fun length _ => ?_
  exact .bind (careful_parts _) fun others _ => .pure ⟨_, _, rfl, hfirst⟩

namespace Selector

variable {P : Token → Prop}

/-- A piece of a prelude is reported where the prelude starts or at one of its commas. -/
theorem place_splitFrom {s : Segment} :
    ∀ (vs : List Value) (depth : Nat) (current : List Value) (place : Position),
      (∀ v ∈ vs, v.AllTokens P) → s ∈ splitFrom vs depth current place →
      s.place = place ∨ Placed P s.place
  | [], depth, current, place, _, hs => by
      rw [splitFrom, List.mem_singleton] at hs
      exact .inl (by rw [hs])
  | v :: vs, depth, current, place, hvs, hs => by
      obtain ⟨hv, hvs⟩ := List.forall_mem_cons.mp hvs
      rw [splitFrom] at hs
      split at hs
      · rcases List.mem_cons.mp hs with rfl | hs
        · exact .inr hv.start
        · rcases place_splitFrom vs _ _ _ hvs hs with hplace | hplace
          · exact .inr (hplace ▸ hv.start)
          · exact .inr hplace
      · exact place_splitFrom vs _ _ _ hvs hs

/-- Only an empty prelude has no place. -/
theorem place_split {vs : List Value} {s : Segment} (hvs : ∀ v ∈ vs, v.AllTokens P)
    (hs : s ∈ split vs) :
    Placed P s.place ∨ s.place = Position.none := by
  rcases place_splitFrom vs _ _ _ hvs hs with hplace | hplace
  · cases vs with
    | nil => exact .inr hplace
    | cons v rest => exact .inl (hplace ▸ (hvs v List.mem_cons_self).start)
  · exact .inl hplace

theorem sound_parseSegment {s : Segment} (hs : ∀ v ∈ s.values, v.Sound P true)
    (hplace : Placed P s.place ∨ s.place = Position.none) :
    (∀ tree, parseSegment s = .ok tree → tree.Solid P) ∧
      ∀ d, parseSegment s = .error d → d.Sound P := by
  unfold parseSegment
  split
  · refine ⟨fun tree h => (by cases h), ?_⟩
    rintro _ ⟨rfl⟩
    exact ⟨rfl, hplace.imp id fun hnone => ⟨hnone, rfl, .inl rfl⟩⟩
  · next hne =>
      have htrimmed : ∀ v ∈ trimWhitespace s.values, v.Sound P true :=
        fun v hv => hs v (mem_of_mem_trimWhitespace hv)
      have hsafe := Scan.careful_complexSelector _ (Cursor.sound_ofValues 0 hne htrimmed)
      split
      · next hok =>
          rw [hok] at hsafe
          refine ⟨?_, fun d h => (by cases h)⟩
          rintro _ ⟨rfl⟩
          exact hsafe.2
      · next herror =>
          rw [herror] at hsafe
          refine ⟨fun tree h => (by cases h), ?_⟩
          rintro _ ⟨rfl⟩
          exact hsafe

/-- The selectors of a grouped prelude start with solid compounds, and a fault in it is sound. -/
theorem sound_parse {prelude : List Value} (hprelude : ∀ v ∈ prelude, v.Sound P true) :
    (∀ list, parse prelude = .ok list → ∀ s ∈ list, s.Solid P) ∧
      ∀ d, parse prelude = .error d → d.Sound P := by
  have hsegments : ∀ s ∈ split prelude, (∀ tree, parseSegment s = .ok tree → tree.Solid P) ∧
      ∀ d, parseSegment s = .error d → d.Sound P := by
    intro s hs
    refine sound_parseSegment (fun v hv => ?_) (place_split (fun v hv => (hprelude v hv).tokens) hs)
    rcases mem_values_splitFrom prelude _ _ _ hs hv with hnil | hmem
    · cases hnil
    · exact hprelude v hmem
  constructor
  · intro list h tree htree
    obtain ⟨s, hs, hread⟩ := Outcome.exists_of_mem_mapM h htree
    exact (hsegments s hs).1 tree hread
  · intro d h
    obtain ⟨s, hs, hread⟩ := Outcome.exists_of_mapM_error h
    exact (hsegments s hs).2 d hread

end Selector

/-! ## The values of declarations -/

namespace Scan

variable {α β : Type}

/-- Over whole values the scan has a result. -/
def Succeeds (x : Scan α) : Prop :=
  ∀ c, c.All Value.IsWhole → ∃ a d, x c = .ok a d ∧ d.All Value.IsWhole

theorem Succeeds.pure (a : α) :
    Succeeds (Pure.pure a : Scan α) :=
  fun c hc => ⟨a, c, rfl, hc⟩

theorem succeeds_next :
    Succeeds next :=
  fun _ hc => ⟨_, _, rfl, hc.next⟩

theorem Succeeds.bind {x : Scan α} {f : α → Scan β} (hx : Succeeds x) (hf : ∀ a, Succeeds (f a)) :
    Succeeds (x >>= f) := by
  intro c hc
  obtain ⟨a, d, hr, hd⟩ := hx c hc
  obtain ⟨b, e, hs, he⟩ := hf a d hd
  refine ⟨b, e, ?_, he⟩
  change EStateM.bind x f c = _
  rw [EStateM.bind, hr]
  exact hs

theorem Succeeds.peek {f : Option Value → Scan β}
    (hf : ∀ front, (∀ v, front = some v → v.IsWhole) → Succeeds (f front)) :
    Succeeds (look (·.peek 0) >>= f) :=
  fun c hc => hf (c.peek 0) (fun _ hv => hc.peek hv) c hc

/-- Among whole values no closer is due, so that none can be the wrong one. -/
theorem succeeds_balancedFrom (anyValue : Bool) :
    ∀ (n : Nat) (read : List Value), Succeeds (balancedFrom anyValue n [] read)
  | 0, _ => .pure _
  | n + 1, read => by
      rw [balancedFrom]
      refine .peek fun front hfront => ?_
      split
      · exact .pure _
      · next t =>
          have hwhole : t.type.closer? = none := hfront _ rfl
          have hdue : dueAfter t [] = [] := by simp [dueAfter, hwhole]
          rw [hdue]
          split
          · exact .bind succeeds_next fun _ => succeeds_balancedFrom anyValue n _
          · split
            · exact .pure _
            · split
              · exact .pure _
              · exact .bind succeeds_next fun _ => succeeds_balancedFrom anyValue n _
      · exact .bind succeeds_next fun _ => succeeds_balancedFrom anyValue n _

end Scan

/-- In a list of whole values the mark of an important declaration is found without a fault. -/
theorem exists_splitImportant {vs : List Value} (hvs : ∀ v ∈ vs, v.IsWhole) :
    ∃ found, splitImportant vs = .ok found := by
  obtain ⟨run, c, hrun, -⟩ := Scan.succeeds_balancedFrom false ((Cursor.ofValues vs 0).items.length + 1)
    [] _ ((Cursor.all_ofValues 0).mpr hvs)
  have hbalanced : Scan.balanced false (.ofValues vs 0) = .ok run c := hrun
  unfold splitImportant
  rw [hbalanced]
  dsimp only
  split
  · exact ⟨_, rfl⟩
  · split <;> exact ⟨_, rfl⟩

end Cascade
