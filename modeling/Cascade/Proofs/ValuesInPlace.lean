import Cascade.Proofs.Contents
import Cascade.Proofs.Provenance
import Cascade.Proofs.RoundTrip
import Cascade.Proofs.SelectorGroups

/-!
# Variables and their values in place

A declaration that uses a variable is the declaration with the value of the variable
written in its place: the value was grouped when the variable was defined, and written
out it is grouped in the same way wherever it stands, among closers that match or do
not.

**Method.**  A definition binds its variable to the groups of its tokens
(`findVariable?_of_definition`).  The tokens with the uses then denote the tokens with
the values in place (`denotes_inlineUses`), so that both have the same contents.

**Results.**
* `declaration_of_inlineUses`: both declarations are the same.
-/

namespace Cascade

/-! ## Values of definitions -/

/-- The value of a definition: brackets match, there is no dollar sign, and no token outside of the
brackets ends the definition. -/
structure DefinitionValue (V : List Token) : Prop where
  balanced : BracketBalanced V
  dollar : ∀ t ∈ V, t.isDelim "$" = false
  outside : ∀ before t behind, V = before ++ t :: behind → BracketBalanced before →
    BracketBalanced behind → Read.endsDefinition t = false

theorem Token.isWhitespace_of_opens {t : Token} {closer : TokenType}
    (h : t.type.closer? = some closer) :
    t.isWhitespace = false := by
  cases htype : t.type <;> simp_all [Token.isWhitespace, TokenType.closer?, TokenType.partner?]

theorem Token.isWhitespace_of_closes {t : Token} (h : t.type.isCloser = true) :
    t.isWhitespace = false := by
  cases htype : t.type <;> simp_all [Token.isWhitespace, TokenType.isCloser]

/-- Behind whitespace in front there is the value of a definition too, and the whitespace has no line
feed. -/
theorem DefinitionValue.tail {t : Token} {V : List Token} (h : DefinitionValue (t :: V))
    (ht : t.isWhitespace = true) :
    DefinitionValue V ∧ t.text.contains '\n' = false := by
  have hsplit : t.IsSingle ∧ BracketBalanced V := by
    cases h.balanced with
    | single hsingle hrest => exact ⟨hsingle, hrest⟩
    | group hcloser _ _ =>
        rw [Token.isWhitespace_of_opens hcloser] at ht
        cases ht
  obtain ⟨hsingle, hrest⟩ := hsplit
  refine ⟨⟨hrest, fun u hu => h.dollar u (List.mem_cons_of_mem _ hu), ?_⟩, ?_⟩
  · rintro before u behind rfl hbefore hbehind
    exact h.outside (t :: before) u behind rfl (.single hsingle hbefore) hbehind
  · have hinline := h.outside [] t V rfl .nil hrest
    simp only [Read.endsDefinition, Bool.or_eq_false_iff] at hinline
    simpa [show (t.type == .whitespace) = true from ht] using hinline.2

section Grouped

variable {ts : List Token} {vs : List Value}

theorem Grouped.all_isWhitespace (h : Grouped ts vs) :
    vs.all Value.isWhitespace = ts.all Token.isWhitespace := by
  induction h with
  | nil => rfl
  | single _ _ _ ih =>
      rw [List.all_cons, List.all_cons, ih]
      rfl
  | block hpartner _ _ _ _ =>
      rw [List.all_cons, List.all_cons,
        Token.isWhitespace_of_opens (TokenType.closer?_of_partner? hpartner)]
      rfl
  | call hname _ _ _ _ _ =>
      rw [List.all_cons, List.all_cons, Token.isWhitespace, hname]
      rfl

theorem Grouped.dropWhile (h : Grouped ts vs) :
    Grouped (ts.dropWhile Token.isWhitespace) (vs.dropWhile Value.isWhitespace) := by
  have hopens {t : Token} {closer : TokenType} (ht : t.type.closer? = some closer) :
      ¬ t.isWhitespace = true := by
    rw [Token.isWhitespace_of_opens ht]
    decide
  induction h with
  | nil => exact .nil
  | @single t ts vs ht hvar h ih =>
      by_cases hblank : t.isWhitespace = true
      · have hblank' : (Value.token t).isWhitespace = true := hblank
        rwa [List.dropWhile_cons_of_pos hblank, List.dropWhile_cons_of_pos hblank']
      · have hblank' : ¬ (Value.token t).isWhitespace = true := hblank
        rw [List.dropWhile_cons_of_neg hblank, List.dropWhile_cons_of_neg hblank']
        exact .single ht hvar h
  | block hpartner hinner h _ _ =>
      rw [List.dropWhile_cons_of_neg (hopens (TokenType.closer?_of_partner? hpartner)),
        List.dropWhile_cons_of_neg (by rintro ⟨⟩)]
      exact .block hpartner hinner h
  | call hname hparen hinner h _ _ =>
      rw [List.dropWhile_cons_of_neg (hopens (by rw [hname]; rfl)),
        List.dropWhile_cons_of_neg (by rintro ⟨⟩)]
      exact .call hname hparen hinner h

theorem Grouped.rdropWhile (h : Grouped ts vs) :
    Grouped (ts.rdropWhile Token.isWhitespace) (vs.rdropWhile Value.isWhitespace) := by
  have hbehind {opener closer : Token} {inner ts : List Token} (hclose : closer.type.isCloser = true) :
      (opener :: (inner ++ closer :: ts)).rdropWhile Token.isWhitespace =
        opener :: (inner ++ closer :: ts.rdropWhile Token.isWhitespace) :=
    rdropWhile_append_of_not (Token.isWhitespace_of_closes hclose) (opener :: inner) ts
  induction h with
  | nil => exact .nil
  | @single t ts vs ht hvar h ih =>
      rw [rdropWhile_cons, rdropWhile_cons, h.all_isWhitespace]
      change Grouped _ (if (t.isWhitespace && ts.all Token.isWhitespace) = true then _ else _)
      split
      · exact .nil
      · refine .single ht ?_ ih
        intro hdollar u hu
        obtain ⟨blanks, hblanks⟩ := List.rdropWhile_prefix Token.isWhitespace (l := ts)
        exact hvar hdollar u (by rw [← hblanks, List.head?_append, hu]; rfl)
  | block hpartner hinner _ _ ih =>
      rw [hbehind (TokenType.isCloser_of_partner? hpartner), rdropWhile_cons]
      exact .block hpartner hinner ih
  | call hname hparen hinner _ _ ih =>
      rw [hbehind (by rw [hparen]; rfl), rdropWhile_cons]
      exact .call hname hparen hinner ih

/-- Trimming is the same before and after grouping. -/
theorem Grouped.trim (h : Grouped ts vs) :
    Grouped (trimTokens ts) (trimWhitespace vs) :=
  h.dropWhile.rdropWhile

/-- No value starts with a token that ends the definition. -/
theorem Grouped.goesOn (h : Grouped ts vs)
    (houtside : ∀ before t behind, ts = before ++ t :: behind → BracketBalanced before →
      BracketBalanced behind → Read.endsDefinition t = false) :
    ∀ v ∈ vs, Read.endsDefinition v.firstToken = false := by
  induction h with
  | nil => exact List.forall_mem_nil _
  | @single t ts vs ht _ h ih =>
      refine List.forall_mem_cons.mpr ⟨houtside [] t ts rfl .nil h.balanced, ih ?_⟩
      rintro before u behind rfl hbefore hbehind
      exact houtside (t :: before) u behind rfl (.single ht hbefore) hbehind
  | @block opener closer inner ts us vs hpartner hinner _ _ ih =>
      refine List.forall_mem_cons.mpr ⟨?_, ih ?_⟩
      · cases htype : opener.type <;>
          simp_all [Value.firstToken, Read.endsDefinition, TokenType.partner?]
      · rintro before u behind rfl hbefore hbehind
        exact houtside (opener :: (inner ++ closer :: before)) u behind (by simp)
          (.group (TokenType.closer?_of_partner? hpartner) hinner.balanced hbefore) hbehind
  | @call name closer inner ts us vs hname hparen hinner _ _ ih =>
      refine List.forall_mem_cons.mpr ⟨?_, ih ?_⟩
      · change Read.endsDefinition name = false
        simp [Read.endsDefinition, hname]
      · rintro before u behind rfl hbefore hbehind
        exact houtside (name :: (inner ++ closer :: before)) u behind (by simp)
          (.group (by rw [hname, hparen]; rfl) hinner.balanced hbefore) hbehind

/-- Groups in front denote the tokens that they are made of. -/
theorem Grouped.denotes {σ : String → Option (List Value)} (h : Grouped ts vs)
    (hdollar : ∀ t ∈ ts, t.isDelim "$" = false) {us : List Value} {rest : List Token}
    (hrest : Denotes σ us rest) :
    Denotes σ (vs ++ us) (ts ++ rest) := by
  induction h with
  | nil => exact hrest
  | @single t _ _ _ _ _ ih =>
      obtain ⟨ht, hdollar⟩ := List.forall_mem_cons.mp hdollar
      exact .token (fun h => by rw [ht] at h; cases h) (fun h => by rw [ht] at h; cases h) (ih hdollar)
  | @block opener closer inner ts _ _ hpartner hinner _ _ ih =>
      have hgroup := Denotes.group (.block hpartner hinner) (ih fun t ht => hdollar t (by simp [ht]))
      simpa using hgroup
  | @call name closer inner ts _ _ hname hparen hinner _ _ ih =>
      have hgroup := Denotes.group (.call hname hparen hinner) (ih fun t ht => hdollar t (by simp [ht]))
      simpa using hgroup

end Grouped

/-! ## Uses -/

/-- The tokens with the value in place of the uses of a variable. -/
def inlineUses (x : String) (value : List Token) : List Token → List Token
  | dollar :: name :: ts =>
    if dollar.isDelim "$" ∧ name.type = .ident ∧ name.text = x then
      value ++ inlineUses x value ts
    else
      dollar :: inlineUses x value (name :: ts)
  | ts => ts

/-- A dollar sign stands only before the name of the variable, with no colon or equals sign behind it. -/
inductive OnlyUses (x : String) : List Token → Prop
  | nil : OnlyUses x []
  | token {t : Token} {ts : List Token} :
      t.isDelim "$" = false → OnlyUses x ts → OnlyUses x (t :: ts)
  | use {dollar name : Token} {ts : List Token} :
      dollar.isDelim "$" = true → name.type = .ident → name.text = x →
      (∀ t ∈ (ts.dropWhile Token.isWhitespace).head?, t.type ≠ .colon ∧ t.isDelim "=" = false) →
      OnlyUses x ts → OnlyUses x (dollar :: name :: ts)

/-- What the tokens denote with the value of the variable is what stands there with the value in place. -/
theorem denotes_inlineUses {σ : String → Option (List Value)} {x : String} {value ts : List Token}
    {values : List Value} (hσ : σ x = some values) (hvalues : Grouped value values)
    (hdollar : ∀ t ∈ value, t.isDelim "$" = false) (h : OnlyUses x ts) :
    Denotes σ (ts.map .token) (inlineUses x value ts) := by
  induction h with
  | nil => exact .nil
  | @token t ts ht _ ih =>
      have hskip : inlineUses x value (t :: ts) = t :: inlineUses x value ts := by
        cases ts <;> simp [inlineUses, ht]
      rw [hskip]
      exact .token (fun h => by rw [ht] at h; cases h) (fun h => by rw [ht] at h; cases h) ih
  | @use dollar name ts hdelim hname htext hsign _ ih =>
      rw [inlineUses, if_pos ⟨hdelim, hname, htext⟩]
      refine .use hdelim hname (htext ▸ hσ) ?_ (hvalues.denotes hdollar ih)
      intro v hv
      rw [List.dropWhile_map, List.head?_map] at hv
      obtain ⟨t, ht, rfl⟩ := Option.mem_map.mp hv
      obtain ⟨hcolon, hequals⟩ := hsign t ht
      simp [Value.isDefinitionSign, Value.hasType, Value.isDelim, hcolon, hequals]

/-- Contents are whole: brackets and functions are in groups. -/
theorem Contents.isWhole {σ : String → Option (List Value)} {stop : Token → Bool}
    {vs us rest : List Value} {closing : Option Token} (h : Contents σ stop vs us closing rest) :
    ∀ v ∈ us, v.IsWhole := by
  induction h with
  | ended => exact List.forall_mem_nil _
  | stopped _ => exact List.forall_mem_nil _
  | single _ hopens _ _ ih => exact List.forall_mem_cons.mpr ⟨hopens, ih⟩
  | block _ _ _ _ _ ih => exact List.forall_mem_cons.mpr ⟨trivial, ih⟩
  | call _ _ _ _ _ ih => exact List.forall_mem_cons.mpr ⟨trivial, ih⟩
  | @group _ g _ _ _ _ hgroup _ ih =>
      refine List.forall_mem_cons.mpr ⟨?_, ih⟩
      cases g with
      | token t => exact (token_not_isGroup hgroup).elim
      | _ => trivial
  | use _ _ _ _ _ _ ih => exact ih

namespace Read

variable {r : Reader}

/-! ## Definitions -/

theorem skips_definitionEnd {t : Token} (ht : endsDefinition t = false) :
    Skips definitionEnd t := by
  intro read r rest hitems
  have hfront := Cursor.peek_of_blank Item.blank_nil hitems
  unfold definitionEnd
  rw [bind_ok (peek_run _ r), hfront]
  simp only [ht]
  rfl

theorem skipInline_of_visible {t : Token} {rest : List Item} (ht : t.isWhitespace = false)
    (hitems : r.cursor.items = .value (.token t) :: rest) (n : Nat) :
    skipInline n r = .ok () r := by
  cases n with
  | zero => rfl
  | succ n =>
      have hfront : r.cursor.peekToken 0 = some t := by
        simp [Cursor.peekToken, Cursor.peek_of_blank Item.blank_nil hitems]
      have htype : ¬ t.type = .whitespace := by
        simpa [Token.isWhitespace] using ht
      rw [skipInline, bind_ok (peek_run _ r), hfront]
      simp only [htype, false_and, if_false]
      rfl

/-- The whitespace in front of a value is skipped. -/
theorem takes_skipInline {V : List Token} (hV : DefinitionValue V) {semicolon : Token}
    {behind : List Item} (hsemicolon : semicolon.type = .semicolon)
    (hitems : r.cursor.items = tokenItems V ++ .value (.token semicolon) :: behind) {n : Nat}
    (hn : V.length ≤ n) :
    Takes (skipInline n) r ()
      (tokenItems (V.dropWhile Token.isWhitespace) ++ .value (.token semicolon) :: behind) := by
  have hstays {t : Token} {rest : List Item} (ht : t.isWhitespace = false) {r : Reader} {n : Nat}
      (hitems : r.cursor.items = .value (.token t) :: rest) :
      Takes (skipInline n) r () (.value (.token t) :: rest) :=
    .inr ⟨r, skipInline_of_visible ht hitems n, hitems, rfl⟩
  induction V generalizing r n with
  | nil => exact hstays (by rw [Token.isWhitespace, hsemicolon]; rfl) hitems
  | cons t V ih =>
      by_cases hblank : t.isWhitespace = true
      · obtain ⟨hV, hinline⟩ := hV.tail hblank
        obtain ⟨n, rfl⟩ := Nat.exists_eq_add_of_le' (Nat.one_le_of_lt hn)
        have hfront : r.cursor.peekToken 0 = some t := by
          simp [Cursor.peekToken, Cursor.peek_of_blank Item.blank_nil hitems]
        have htype : t.type = .whitespace := eq_of_beq hblank
        rw [List.dropWhile_cons_of_pos hblank, skipInline]
        refine .peek ?_
        simp only [hfront, htype, hinline, Bool.false_eq_true, not_false_eq_true, and_self, if_true]
        exact (takes_next Item.blank_nil hitems).bind fun s hs _ => ih hV hs (Nat.le_of_succ_le_succ hn)
      · rw [List.dropWhile_cons_of_neg hblank]
        exact hstays (by simpa using hblank) hitems

/-- The value of a definition is read as the trimmed groups of its tokens. -/
theorem takes_valueList {V : List Token} {vs : List Value} (hV : DefinitionValue V) (hvs : Grouped V vs)
    {semicolon : Token} {behind : List Item} (hsemicolon : semicolon.type = .semicolon)
    (hitems : r.cursor.items = tokenItems V ++ .value (.token semicolon) :: behind) (n : Nat) :
    Takes (valueList n) r (trimWhitespace vs) behind := by
  cases n with
  | zero =>
      rw [valueList_zero]
      exact .exhausted
  | succ n =>
      have hlength : V.length ≤ r.cursor.items.length := by
        rw [hitems]
        simp [tokenItems]
      rw [valueList]
      refine .peek ((takes_skipInline hV hsemicolon hitems hlength).bind fun s hs _ => ?_)
      refine (regroups hvs.dropWhile).collect ?_ ?_ hs ?_ n
      · intro v hv
        exact skips_definitionEnd (hvs.goesOn hV.outside v ((List.dropWhile_sublist _).subset hv))
      · rintro _ ⟨⟩
        simp [Value.hasType, hsemicolon]
      · intro n t ht _
        have hfront := Cursor.peek_of_blank Item.blank_nil ht
        have hend : endsDefinition semicolon = true := by
          simp [endsDefinition, hsemicolon]
        have hlast : Takes (definitionEnd ((vs.dropWhile Value.isWhitespace).reverse ++ [])) t
            (some (trimWhitespace vs)) behind := by
          unfold definitionEnd
          refine .peek ?_
          simp only [hfront, hend, if_true, List.append_nil, List.reverse_reverse]
          have htrim : trimWhitespace (vs.dropWhile Value.isWhitespace) = trimWhitespace vs := by
            rw [trimWhitespace, List.dropWhile_idempotent, trimWhitespace]
          rw [htrim]
          exact (takes_next Item.blank_nil ht).bind fun u hu _ => .pure hu
        cases n with
        | zero =>
            rw [collect_zero]
            exact .exhausted
        | succ n =>
            rw [collect]
            exact hlast.bind fun u hu _ => .pure hu

theorem skipWhitespace_of_visible {v : Value} {rest : List Item} (hv : v.isWhitespace = false)
    (hitems : r.cursor.items = .value v :: rest) :
    skipWhitespace r = .ok () r := by
  have hstays : r.cursor.skipWhitespace = r.cursor := by
    rw [Cursor.skipWhitespace, hitems, Cursor.skipBlanks, hv]
    simp [← hitems]
  rw [skipWhitespace, scan, Scan.skipWhitespace, hstays]

theorem noVariable_of_forall {ts : List Token} (h : ∀ t ∈ ts, t.isDelim "$" = false) :
    NoVariable ts := by
  induction ts with
  | nil => exact .nil
  | cons t ts ih =>
      obtain ⟨ht, hts⟩ := List.forall_mem_cons.mp h
      refine List.isChain_cons.mpr ⟨?_, ih hts⟩
      intro u _ hdollar
      rw [ht] at hdollar
      cases hdollar

/-- A definition binds its variable to the groups of the trimmed tokens. -/
theorem findVariable?_of_definition {V : List Token} (hV : DefinitionValue V)
    {dollar name colon semicolon : Token} (hdollar : dollar.isDelim "$" = true)
    (hname : name.type = .ident) (hcolon : colon.type = .colon)
    (hsemicolon : semicolon.type = .semicolon) {behind : List Item}
    (hitems : r.cursor.items =
      tokenItems (dollar :: name :: colon :: (V ++ [semicolon])) ++ behind)
    {n : Nat} {use : VariableUse} {s : Reader} (hrun : variableUse n r = .ok use s) :
    ∃ values, Grouped (trimTokens V) values ∧ s.scopes.findVariable? name.text = some values := by
  obtain ⟨vs, hvs⟩ := exists_grouped hV.balanced (noVariable_of_forall hV.dollar)
  refine ⟨trimWhitespace vs, hvs.trim, ?_⟩
  cases n with
  | zero =>
      rw [variableUse_zero] at hrun
      cases hrun
  | succ n =>
      have hitems : r.cursor.items = .value (.token dollar) :: .value (.token name) ::
          .value (.token colon) :: (tokenItems V ++ .value (.token semicolon) :: behind) := by
        rw [hitems]
        simp [tokenItems]
      generalize hvalue : tokenItems V ++ .value (.token semicolon) :: behind = value at hitems
      have hbehindName : scan (Scan.consume .ident "Expected variable name after '$'")
          (Behind r (.value (.token name) :: .value (.token colon) :: value) dollar.position) =
            .ok name (Behind r (.value (.token colon) :: value) name.position) :=
        consume_of_items _ rfl hname
      rw [variableUse_succ, bind_ok (consumeDelim_of_items _ hitems hdollar), bind_ok hbehindName] at hrun
      have hcolonItems : (Behind r (.value (.token colon) :: value) name.position).cursor.items =
          .value (.token colon) :: value := rfl
      generalize Behind r (.value (.token colon) :: value) name.position = t at hrun hcolonItems
      have hvisible : (Value.token colon).isWhitespace = false := by
        simp [Value.isWhitespace, Value.hasType, hcolon]
      have hoffset : t.cursor.blankOffset = 0 := by
        rw [Cursor.blankOffset, hcolonItems, Item.blankCount, hvisible]
        rfl
      have hfront := Cursor.peek_of_blank Item.blank_nil hcolonItems
      have hoperator : t.cursor.peekToken 0 = some colon := by
        simp [Cursor.peekToken, hfront]
      unfold definitionOrUse at hrun
      rw [bind_ok (peek_run _ t), bind_ok (peek_run _ t), hoffset, hoperator] at hrun
      simp only [hcolon, true_or, if_true] at hrun
      rw [bind_ok (skipWhitespace_of_visible hvisible hcolonItems), bind_ok (next_of_peek hfront)] at hrun
      have hread := takes_valueList (r := { t with cursor := t.cursor.next.2 }) hV hvs hsemicolon
        ((Cursor.items_next_of_blank Item.blank_nil hcolonItems).trans hvalue.symm) n
      rcases hread with ⟨e, u, hstop, _⟩ | ⟨u, hok, _, _⟩
      · rw [bind_error hstop] at hrun
        cases hrun
      · rw [bind_ok hok] at hrun
        cases hrun
        exact Scopes.findVariable?_setVariable _ _ _

/-! ## Declarations -/

/-- The values of a declaration end at a semicolon. -/
theorem endsAt_declarationEnd :
    EndsAt (·.type == .semicolon) declarationEnd fun read _ => read.reverse where
  ended := by
    intro r read hitems
    unfold declarationEnd
    refine .peek ?_
    rw [peek_of_items_nil hitems]
    exact .pure hitems
  stopped := by
    intro r t vs read hitems hstop
    have hinside : r.cursor.atExpansionEnd = false := by
      rw [Cursor.atExpansionEnd, hitems]
      rfl
    unfold declarationEnd
    refine .peek ?_
    simp only [peek_of_items_cons hitems]
    refine .peek ?_
    simp only [hinside, Bool.false_eq_true, if_false, Value.hasType, hstop, if_true]
    exact (Gives.next hitems).bind fun s hs _ => .pure hs
  goesOn := by
    intro r v vs read hitems hstop
    have hinside : r.cursor.atExpansionEnd = false := by
      rw [Cursor.atExpansionEnd, hitems]
      rfl
    have htype : v.hasType .semicolon = false := by
      cases v with
      | token t => exact hstop
      | _ => rfl
    unfold declarationEnd
    rw [bind_ok (peek_run _ r), peek_of_items_cons hitems]
    simp only
    rw [bind_ok (peek_run _ r), hinside]
    simp only [htype]
    rfl

/-- A declaration is read from the contents behind its colon. -/
theorem gives_declaration {σ : String → Option (List Value)} {property colon : Token}
    {vs us rest value : List Value} {closing : Option Token} {important : Bool} {bound n : Nat}
    (hproperty : property.type = .ident) (hcolon : colon.type = .colon)
    (hreads : ReadsContents σ (·.type == .semicolon) vs us closing rest bound)
    (hsplit : splitImportant (trimWhitespace us) = .ok (value, important)) (hbinds : r.scopes.Binds σ)
    (hitems : r.cursor.items = (.token property :: .token colon :: vs).map .value) (hn : bound ≤ n) :
    Gives (declaration n) r ⟨property, colon, value, important⟩ rest := by
  have hname : Gives (scan (Scan.consume .ident "Expected property name")) r property
      (.token colon :: vs) :=
    .inr ⟨_, consume_of_items _ hitems hproperty, rfl, rfl, rfl⟩
  unfold declaration
  refine hname.bind fun s hs hscopes => ?_
  have hvisible : (Value.token colon).isWhitespace = false := by
    simp [Value.isWhitespace, Value.hasType, hcolon]
  have hcolonRun : Gives (scan (Scan.consume .colon s!"Expected ':' after property name {property.text}"))
      s colon vs :=
    .inr ⟨_, consume_of_items _ hs hcolon, rfl, rfl, rfl⟩
  refine .of_run (bind_ok (skipWhitespace_of_visible hvisible hs)) (hcolonRun.bind fun t ht hscopes' => ?_)
  have hread := hreads.collect endsAt_declarationEnd [] hn (by rw [hscopes', hscopes]; exact hbinds) ht
  refine hread.bind fun u hu _ => ?_
  simp only [List.append_nil, List.reverse_reverse, hsplit]
  exact .pure hu

/-- Two readers behind a definition, `a` at a declaration that uses the variable and `b` at the same
declaration with the trimmed value in place of every use, read the same declaration, unless one of them
has no room for one more block. -/
theorem declaration_of_inlineUses {V : List Token} (hV : DefinitionValue V)
    {dollar name colon semicolon : Token} (hdollar : dollar.isDelim "$" = true)
    (hname : name.type = .ident) (hcolon : colon.type = .colon)
    (hsemicolon : semicolon.type = .semicolon) {behind : List Item} {r s : Reader} {n : Nat}
    {use : VariableUse}
    (hdefinition : r.cursor.items =
      tokenItems (dollar :: name :: colon :: (V ++ [semicolon])) ++ behind)
    (hrun : variableUse n r = .ok use s) {property sign : Token} {ts : List Token}
    (hproperty : property.type = .ident) (hsign : sign.type = .colon) (huses : OnlyUses name.text ts)
    {a b : Reader} (hbound : a.scopes.findVariable? name.text = s.scopes.findVariable? name.text)
    (hfree : a.scopes.isParameter name.text = false)
    (ha : a.cursor.items = tokenItems (property :: sign :: ts))
    (hb : b.cursor.items =
      tokenItems (property :: sign :: inlineUses name.text (trimTokens V) ts)) :
    ∃ (d : Declaration) (bound : Nat), ∀ m, bound ≤ m →
      (WantsRoom (declaration m) a ∨ ∃ t, declaration m a = .ok d t) ∧
        (WantsRoom (declaration m) b ∨ ∃ t, declaration m b = .ok d t) := by
  obtain ⟨values, hvalues, hfind⟩ :=
    findVariable?_of_definition hV hdollar hname hcolon hsemicolon hdefinition hrun
  have hdollars : ∀ t ∈ trimTokens V, t.isDelim "$" = false :=
    fun t ht => hV.dollar t (List.dropWhile_subset _ ((List.rdropWhile_prefix _ _).subset ht))
  -- The variable has its value for the first reader; the second one asks for none.
  have hbinds := Scopes.Binds.single hfree (hbound.trans hfind)
  have hdenotes : Denotes (fun x => if x = name.text then some values else none) (ts.map .token)
      (inlineUses name.text (trimTokens V) ts) :=
    denotes_inlineUses (if_pos rfl) hvalues hdollars huses
  have hstop : StopsOutside (·.type == .semicolon) := by
    refine ⟨fun {t} _ h => ?_, fun {t} h => ?_⟩
    · cases htype : t.type <;> simp_all [TokenType.closer?, TokenType.partner?]
    · rw [(Token.isDelim_iff.mp h).1]
      rfl
  obtain ⟨us, closing, rest, rest', hus, hus', -, -⟩ := exists_contents hdenotes hstop
  obtain ⟨⟨value, important⟩, hsplit⟩ :=
    exists_splitImportant fun v hv => hus.isWhole v (mem_of_mem_trimWhitespace hv)
  obtain ⟨bound, hreads⟩ := exists_readsContents hus
  obtain ⟨bound', hreads'⟩ := exists_readsContents hus'
  have hgives {c : Reader} {d : Declaration} {rest : List Value} {m : Nat}
      (h : Gives (declaration m) c d rest) :
      WantsRoom (declaration m) c ∨ ∃ t, declaration m c = .ok d t :=
    h.imp_right (Exists.imp fun _ ht => ht.1)
  rw [items_of_tokens] at ha hb
  refine ⟨⟨property, sign, value, important⟩, max bound bound', fun m hm => ⟨?_, ?_⟩⟩
  · exact hgives (gives_declaration hproperty hsign hreads hsplit hbinds ha (le_of_max_le_left hm))
  · exact hgives (gives_declaration hproperty hsign hreads' hsplit (.none _) hb (le_of_max_le_right hm))

/-- The value `a,(b)`. -/
def pairValue : List Token :=
  [.bare .ident "a", .bare .comma ",", .bare .openParen "(", .bare .ident "b",
    .bare .closeParen ")"]

theorem definitionValue_pairValue :
    DefinitionValue pairValue := by
  have hsingle {type : TokenType} {text : String} (hopens : type.closer? = none)
      (hcloses : type.isCloser = false) (hends : type ≠ .eof) : (Token.bare type text).IsSingle :=
    ⟨hopens, hcloses, hends⟩
  have hgroup : BracketBalanced [.bare .openParen "(", .bare .ident "b",
      .bare .closeParen ")"] :=
    .group rfl (.single (hsingle rfl rfl (by decide)) .nil) .nil
  refine ⟨.single (hsingle rfl rfl (by decide)) (.single (hsingle rfl rfl (by decide)) hgroup),
    by decide, ?_⟩
  intro before t behind hsplit _ _
  have hall : ∀ t ∈ pairValue, endsDefinition t = false := by decide
  exact hall t (by rw [hsplit]; simp)

/-- The tokens `f( $x ] $x ;`, in which the call is not closed. -/
def pairUses : List Token :=
  [.bare .function "f", .bare .delim "$", .bare .ident "x", .bare .closeBracket "]",
    .bare .delim "$", .bare .ident "x", .bare .semicolon ";"]

theorem onlyUses_pairUses :
    OnlyUses "x" pairUses := by
  have hsecond : OnlyUses "x" [.bare .delim "$", .bare .ident "x", .bare .semicolon ";"] :=
    .use rfl rfl rfl (by decide) (.token rfl .nil)
  exact .token rfl (.use rfl rfl rfl (by decide) (.token rfl hsecond))

/-- The value stands in a call that is not closed, beside a stray closer. -/
theorem declaration_of_inlineUses_pair :
    ∃ use s, variableUse 40 (.ofTokens (.bare .delim "$" :: .bare .ident "x" ::
        .bare .colon ":" :: (pairValue ++ [.bare .semicolon ";"])) {}) = .ok use s ∧
      ∃ (d : Declaration) (bound : Nat), ∀ m, bound ≤ m →
        (WantsRoom (declaration m) { s with
            cursor := .ofTokens (.bare .ident "p" :: .bare .colon ":" :: pairUses) } ∨
          ∃ t, declaration m { s with
            cursor := .ofTokens (.bare .ident "p" :: .bare .colon ":" :: pairUses) } = .ok d t) ∧
        (WantsRoom (declaration m) (.ofTokens (.bare .ident "p" :: .bare .colon ":" ::
            inlineUses "x" (trimTokens pairValue) pairUses) {}) ∨
          ∃ t, declaration m (.ofTokens (.bare .ident "p" :: .bare .colon ":" ::
            inlineUses "x" (trimTokens pairValue) pairUses) {}) = .ok d t) := by
  generalize hreader : Reader.ofTokens (.bare .delim "$" :: .bare .ident "x" ::
    .bare .colon ":" :: (pairValue ++ [.bare .semicolon ";"])) {} = r
  have hok : (match variableUse 40 r with
      | .ok _ s => s.scopes.isParameter "x"
      | .error _ _ => true) = false := by
    rw [← hreader]
    decide +kernel
  have hitems : r.cursor.items = tokenItems (.bare .delim "$" :: .bare .ident "x" ::
      .bare .colon ":" :: (pairValue ++ [.bare .semicolon ";"])) ++ [] := by
    rw [← hreader]
    rfl
  cases h : variableUse 40 r with
  | ok use s =>
      rw [h] at hok
      refine ⟨use, s, rfl, ?_⟩
      exact declaration_of_inlineUses definitionValue_pairValue rfl rfl rfl rfl hitems h rfl rfl
        onlyUses_pairUses rfl hok rfl rfl
  | error stop s =>
      rw [h] at hok
      cases hok

end Read
end Cascade
