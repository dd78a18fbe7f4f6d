import Cascade.Proofs.FlatSheets
import Cascade.Proofs.Placement

/-!
# Reading flat stylesheets

What is read of the tokens of flat rules is entries that are written as these rules.

**Method.**  `Shown` relates the entries of a body to flat rules with the same text.  Reading
goes through the tokens (`SheetTokens`) and gives such entries, unless it is cut short
(`Read.takes_flats`); each at-rule and each rule has its own lemma.

**Results.**
* `exists_flattenBody`: what is written of a body that is written as flat rules.
* `Read.takes_flats`: what is read of the tokens of flat rules.
-/

namespace Cascade
open Output

/-! ## Entries and flat rules -/

/-- At the top level the entry is written as the flat rule, which holds more than declarations. -/
def Entry.Shows (minify : Bool) (e : Entry) (f : Flat) : Prop :=
  (∀ ds last, f ≠ .declarations ds last) ∧ ∃ g, flatten minify [] e = .ok [g] ∧
    ∀ (style : Style) (level : Nat), style.minify = minify →
      flatText style level g = flatText style level f

/-- The entries of a body of a kind are written as the flat rules. -/
inductive Shown (minify : Bool) : BodyKind → List Entry → List Flat → Prop
  | nil {kind : BodyKind} : Shown minify kind [] []
  | entry {kind : BodyKind} {e : Entry} {f : Flat} {es : List Entry} {fs : List Flat} :
      e.Shows minify f → Shown minify kind es fs → Shown minify kind (e :: es) (f :: fs)
  | ended {es : List Entry} {last : Bool} {fs : List Flat} :
      Shown minify .declarations es fs → Shown minify .declarations es (.declarations [] last :: fs)
  | declaration {d d' : Declaration} {es : List Entry} {ds : List Declaration} {last : Bool}
      {fs : List Flat} :
      (minify = true → last = fs.all Flat.isVoid) →
      declarationText minify d' = declarationText minify d →
      Shown minify .declarations es (.declarations ds last :: fs) →
      Shown minify .declarations (.declaration d' :: es) (.declarations (d :: ds) last :: fs)

section Shown

variable {minify : Bool} {kind : BodyKind} {es : List Entry} {fs : List Flat}

theorem Entry.Shows.isDeclaration {e : Entry} {f : Flat} (h : e.Shows minify f) :
    e.isDeclaration = false := by
  obtain ⟨-, g, hflat, -⟩ := h
  cases e with
  | declaration d => simp [flatten, throw, throwThe, MonadExceptOf.throw] at hflat
  | _ => rfl

theorem Entry.Shows.isVoid {e : Entry} {f : Flat} (h : e.Shows minify f) :
    f.isVoid = false := by
  cases f with
  | declarations ds last => exact (h.1 ds last rfl).elim
  | _ => rfl

theorem flatsText_append (style : Style) (level : Nat) (fs gs : List Flat) :
    flatsText style level (fs ++ gs) = flatsText style level fs ++ flatsText style level gs := by
  induction fs with
  | nil => rw [flatsText]; rfl
  | cons f fs ih => rw [List.cons_append, flatsText, flatsText, ih, List.append_assoc]

/-- Declarations with the same texts are written alike. -/
theorem declarationsText_congr {style : Style} (hstyle : style.minify = minify) (level : Nat)
    (last : Bool) {ds ds' : List Declaration}
    (h : List.Forall₂ (fun d d' => declarationText minify d = declarationText minify d') ds ds') :
    declarationsText style level last ds = declarationsText style level last ds' := by
  subst hstyle
  induction h with
  | nil => rfl
  | @cons d d' ds ds' hd hds ih =>
      have hempty : ds.isEmpty = ds'.isEmpty := by cases hds <;> rfl
      rw [declarationsText, declarationsText, hd, ih, hempty]

/-- Only behind the last declaration there may be no semicolon. -/
theorem declarationsText_append {style : Style} (level : Nat) (last : Bool)
    (ds ds' : List Declaration) (hds' : ds' ≠ []) :
    declarationsText style level last (ds ++ ds') =
      declarationsText style level false ds ++ declarationsText style level last ds' := by
  induction ds with
  | nil => rfl
  | cons d ds ih => simp [declarationsText, hds', ih]

/-- What is written of the body of an at-rule, behind declarations that are still to be written. -/
theorem exists_flattenBody (h : Shown minify kind es fs) (run : List Declaration) :
    ∃ gs, flattenBody minify run es = .ok gs ∧
      ∀ (style : Style) (level : Nat), style.minify = minify →
        flatsText style level gs =
          declarationsText style level (fs.all Flat.isVoid) run.reverse ++ flatsText style level fs := by
  induction h generalizing run with
  | nil =>
      refine ⟨_, by rw [flattenBody]; rfl, fun style level hstyle => ?_⟩
      cases run <;> simp [flatsText, flatText, declarationsText]
  | @entry kind e f es fs he _ ih =>
      have hrule := he.isDeclaration
      have hfull := he.isVoid
      obtain ⟨-, g, hflat, htext⟩ := he
      obtain ⟨gs, hbody, htexts⟩ := ih []
      refine ⟨_, by rw [flattenBody_cons hrule, hflat, hbody]; rfl, fun style level hstyle => ?_⟩
      have hdeclared : flatsText style level
          (if run.isEmpty then [] else [.declarations run.reverse false]) =
            declarationsText style level false run.reverse := by
        cases run with
        | nil => rw [List.isEmpty_nil, if_pos rfl, flatsText]; rfl
        | cons d ds =>
            rw [List.isEmpty_cons, if_neg Bool.false_ne_true, flatsText, flatText, flatsText,
              List.append_nil]
      rw [flatsText_append, flatsText_append, hdeclared, htexts style level hstyle, flatsText,
        flatsText, flatsText, htext style level hstyle, List.all_cons, hfull]
      simp [declarationsText]
  | ended _ ih =>
      obtain ⟨gs, hbody, htexts⟩ := ih run
      exact ⟨gs, hbody, fun style level hstyle => by simp [htexts style level hstyle, flatsText,
        flatText, declarationsText, Flat.isVoid]⟩
  | @declaration d d' es ds last fs hlast hd _ ih =>
      obtain ⟨gs, hbody, htexts⟩ := ih (d' :: run)
      refine ⟨gs, by rw [flattenBody, hbody], fun style level hstyle => ?_⟩
      rw [htexts style level hstyle, List.reverse_cons,
        declarationsText_append level _ _ _ (List.cons_ne_nil d' [])]
      subst hstyle
      have hends : (style.minify && (Flat.declarations ds last :: fs).all Flat.isVoid) =
          (style.minify && last && ds.isEmpty) := by
        cases hminify : style.minify with
        | false => rfl
        | true =>
            rw [hlast hminify]
            cases ds <;> simp [Flat.isVoid]
      have hfull : (Flat.declarations (d :: ds) last :: fs).all Flat.isVoid = false := rfl
      rw [hfull, flatsText, flatsText, flatText, flatText, declarationsText, declarationsText,
        declarationsText, List.isEmpty_nil, Bool.and_true, hends, hd]
      simp

/-- What is read of declarations alone is declarations alone. -/
theorem Shown.exists_declarations {ds : List Declaration} {last : Bool}
    (h : Shown minify .declarations es [.declarations ds last]) :
    ∃ ds', es = ds'.map .declaration ∧
      List.Forall₂ (fun d d' => declarationText minify d = declarationText minify d') ds' ds := by
  generalize hfs : [Flat.declarations ds last] = fs at h
  generalize hkind : BodyKind.declarations = kind at h
  induction h generalizing ds with
  | nil => cases hfs
  | entry he => exact (he.1 ds last (List.cons.inj hfs).1.symm).elim
  | ended hes _ =>
      cases hfs
      cases hes
      exact ⟨[], rfl, .nil⟩
  | @declaration d d' es ds₁ last' fs₁ _ hd _ ih =>
      cases hfs
      obtain ⟨ds', rfl, htexts⟩ := ih rfl rfl
      exact ⟨d' :: ds', rfl, .cons hd htexts⟩

theorem declarationsOf_map (ds : List Declaration) :
    declarationsOf (ds.map .declaration) = ds := by
  simp [declarationsOf, List.filterMap_map]

theorem flattenRules_declarations (minify : Bool) (parents : List (List Char))
    (ds : List Declaration) :
    flattenRules minify parents (ds.map .declaration) = .ok [] := by
  induction ds with
  | nil => rw [List.map_nil, flattenRules]; rfl
  | cons d ds ih => rw [List.map_cons, flattenRules, ih]

/-- A rule with declarations alone. -/
theorem flatText_rule_congr {head : List Char} {ds ds' : List Declaration}
    (h : List.Forall₂ (fun d d' => declarationText minify d = declarationText minify d') ds ds')
    (style : Style) (level : Nat) (hstyle : style.minify = minify) :
    flatText style level (.rule head ds) = flatText style level (.rule head ds') := by
  rw [flatText, flatText, declarationsText_congr hstyle (level + 1) true h]

theorem shows_style {prelude : List Value} {list : SelectorList} {head : List Char}
    {ds : List Declaration} (hhead : joinSelectors minify (resolveSelectors minify [] list) = head)
    (hfull : minify = true → ds ≠ []) (h : Shown minify .declarations es [.declarations ds true]) :
    (Entry.style prelude list es).Shows minify (.rule head ds) := by
  obtain ⟨ds', rfl, htexts⟩ := h.exists_declarations
  refine ⟨fun _ _ h => Flat.noConfusion h, .rule head ds', ?_, flatText_rule_congr htexts⟩
  have hplaced : misplacedInStyle? (ds'.map .declaration) = none := by
    simp [misplacedInStyle?]
  rw [flatten, hplaced, flattenRules_declarations, declarationsOf_map, hhead]
  cases htexts with
  | nil =>
      have hlong : minify = false := by simpa using hfull
      rw [hlong]
      rfl
  | cons => rfl

theorem shows_keyframe {prelude : List Value} {opener : Token} {closer : Option Token}
    {head : List Char} {ds : List Declaration} (hhead : valuesText minify prelude = head)
    (h : Shown minify .declarations es [.declarations ds true]) :
    (Entry.keyframe prelude opener es closer).Shows minify (.rule head ds) := by
  obtain ⟨ds', rfl, htexts⟩ := h.exists_declarations
  refine ⟨fun _ _ h => Flat.noConfusion h, .rule head ds', ?_, flatText_rule_congr htexts⟩
  have hplaced : misplacedInKeyframe? (ds'.map .declaration) = none := by
    simp [misplacedInKeyframe?]
  rw [flatten, hplaced, declarationsOf_map, hhead]
  rfl

theorem shows_statement {name : Token} {prelude : List Value} {text : List Char}
    (h : atHead minify name prelude = text) :
    (Entry.statement name prelude).Shows minify (.statement text) := by
  refine ⟨fun _ _ h => Flat.noConfusion h, .statement text, ?_, fun _ _ _ => rfl⟩
  rw [flatten, h]
  rfl

theorem shows_group {name opener : Token} {prelude : List Value} {closer : Option Token}
    {text : List Char} (hhead : atHead minify name prelude = text) (h : Shown minify kind es fs) :
    (Entry.group name prelude opener es closer).Shows minify (.group text fs) := by
  obtain ⟨gs, hbody, htexts⟩ := exists_flattenBody h []
  refine ⟨fun _ _ h => Flat.noConfusion h, .group text gs, ?_, fun style level hstyle => ?_⟩
  · rw [flatten, hbody, hhead]
    rfl
  · rw [flatText, flatText, htexts style (level + 1) hstyle]
    simp [declarationsText]

end Shown

/-! ## Tokens of flat rules -/

section Tokens

variable {minify : Bool} {kind : BodyKind} {ts us : List Token} {vs ws : List Value} {fs : List Flat}

/-- Groups stay groups in front of others. -/
theorem Grouped.append (h : Grouped ts vs) (hus : Grouped us ws)
    (hident : ∀ u ∈ us.head?, u.type ≠ .ident) :
    Grouped (ts ++ us) (vs ++ ws) := by
  induction h with
  | nil => exact hus
  | @single t ts vs ht hvar _ ih =>
      refine .single ht (fun hdollar u hu => ?_) ih
      cases ts with
      | nil => exact hident u hu
      | cons w ts => exact hvar hdollar u hu
  | block hpartner hinner _ _ ih =>
      rw [List.cons_append, List.append_assoc, List.cons_append]
      exact .block hpartner hinner ih
  | call hname hparen hinner _ _ ih =>
      rw [List.cons_append, List.append_assoc, List.cons_append]
      exact .call hname hparen hinner ih

theorem Token.IsSingle.of_type {t : Token} {type : TokenType} (ht : t.type = type)
    (hopens : type.closer? = none) (hcloses : type.isCloser = false) (hends : type ≠ .eof) :
    t.IsSingle :=
  ⟨by rw [ht, hopens], by rw [ht, hcloses], by rwa [ht]⟩

theorem isSingle_blank {t : Token} (ht : t.type = .whitespace) :
    t.IsSingle :=
  .of_type ht rfl rfl (by decide)

theorem Grouped.blank_cons {blank : Token} (hblank : blank.type = .whitespace) (h : Grouped ts vs) :
    Grouped (blank :: ts) (.token blank :: vs) := by
  refine .single (isSingle_blank hblank) (fun hdollar => ?_) h
  simp [Token.isDelim, hblank] at hdollar

theorem Grouped.blanks_append {blanks : List Token} (hblanks : ∀ t ∈ blanks, t.type = .whitespace)
    (h : Grouped ts vs) :
    Grouped (blanks ++ ts) (blanks.map .token ++ vs) := by
  induction blanks with
  | nil => exact h
  | cons blank blanks ih =>
      obtain ⟨hblank, hblanks⟩ := List.forall_mem_cons.mp hblanks
      exact (ih hblanks).blank_cons hblank

theorem Grouped.append_blanks {blanks : List Token} (hblanks : ∀ t ∈ blanks, t.type = .whitespace)
    (h : Grouped ts vs) :
    Grouped (ts ++ blanks) (vs ++ blanks.map .token) := by
  have hall := Grouped.nil.blanks_append hblanks
  rw [List.append_nil, List.append_nil] at hall
  refine h.append hall fun u hu => ?_
  simp [hblanks u (List.mem_of_mem_head? hu)]

theorem isWhitespace_blank {t : Token} (ht : t.type = .whitespace) :
    (Value.token t).isWhitespace = true := by
  simp [Value.isWhitespace, Value.hasType, ht]

theorem isWhitespace_blanks {blanks : List Token} (hblanks : ∀ t ∈ blanks, t.type = .whitespace) :
    ∀ v ∈ blanks.map Value.token, v.isWhitespace = true :=
  List.forall_mem_map.mpr fun t ht => isWhitespace_blank (hblanks t ht)

theorem trimWhitespace_blank_cons {t : Token} (ht : t.type = .whitespace) (vs : List Value) :
    trimWhitespace (.token t :: vs) = trimWhitespace vs := by
  rw [trimWhitespace, List.dropWhile_cons_of_pos (isWhitespace_blank ht)]
  rfl

theorem trimWhitespace_blanks_append {blanks : List Token}
    (hblanks : ∀ t ∈ blanks, t.type = .whitespace) (vs : List Value) :
    trimWhitespace (blanks.map .token ++ vs) = trimWhitespace vs := by
  rw [trimWhitespace, List.dropWhile_append_of_pos (isWhitespace_blanks hblanks)]
  rfl

theorem DeclarationTokens.balanced {d : Declaration} (h : DeclarationTokens minify d ts) :
    BracketBalanced ts := by
  cases h with
  | @intro name colon blanks tail hname _ hcolon hblanks hreads =>
      obtain ⟨vs, value, hgrouped, -⟩ := hreads
      exact .single (.of_type hname rfl rfl (by decide)) <|
        .single (.of_type hcolon rfl rfl (by decide)) (hgrouped.blanks_append hblanks).balanced

/-- The tokens behind the name of an at-rule group to the values of its prelude. -/
structure PreludeGroups (ts : List Token) (vs : List Value) : Prop where
  grouped : Grouped ts vs
  ends : ∀ v ∈ vs, v.firstToken.type ≠ .semicolon ∧ v.firstToken.type ≠ .openBrace
  starts : ∀ u ∈ (ts.dropWhile Token.isWhitespace).head?, u.isDelim "=" = false

/-- Whitespace in front of the end of a prelude. -/
theorem PreludeGroups.append_blanks {front blanks : List Token} {vs : List Value}
    (h : PreludeGroups front vs) (hblanks : ∀ t ∈ blanks, t.type = .whitespace) :
    PreludeGroups (front ++ blanks) (vs ++ blanks.map .token) where
  grouped := h.grouped.append_blanks hblanks
  ends := by
    refine List.forall_mem_append.mpr ⟨h.ends, List.forall_mem_map.mpr fun t ht => ?_⟩
    simp [Value.firstToken, hblanks t ht]
  starts := by
    intro u hu
    have hwhite : ∀ t ∈ blanks, t.isWhitespace = true := fun t ht => by
      simpa [Token.isWhitespace] using hblanks t ht
    rw [List.dropWhile_append] at hu
    split at hu
    · rw [List.dropWhile_eq_nil_iff.mpr hwhite] at hu
      cases hu
    · next hfull =>
        refine h.starts u ?_
        rwa [List.head?_append_of_ne_nil _ (by simpa using hfull)] at hu

theorem PreludeTokens.exists_groups {text : List Char} (h : PreludeTokens minify text ts)
    (name : Token) :
    ∃ vs, PreludeGroups ts vs ∧ atHead minify name (trimWhitespace vs) = atText name.text text := by
  cases h with
  | nil => exact ⟨[], ⟨.nil, by simp, by simp⟩, by simp [atHead, atText, trimWhitespace]⟩
  | @cons _ blank us hne hblank hreads =>
      obtain ⟨vs, hgrouped, hskips, hhead, htext⟩ := hreads
      have hwhite : blank.isWhitespace = true := by simpa [Token.isWhitespace] using hblank
      refine ⟨.token blank :: vs, ⟨hgrouped.blank_cons hblank, ?_, ?_⟩, ?_⟩
      · refine List.forall_mem_cons.mpr ⟨?_, hskips⟩
        simp [Value.firstToken, hblank]
      · intro u hu
        rw [List.dropWhile_cons_of_pos hwhite] at hu
        cases us with
        | nil => cases hu
        | cons w us =>
            obtain ⟨hvisible, hsign⟩ := hhead w rfl
            rw [List.dropWhile_cons_of_neg (by simpa using hvisible)] at hu
            cases hu
            exact hsign
      · rw [trimWhitespace_blank_cons hblank]
        have hfull : trimWhitespace vs ≠ [] := by
          intro hempty
          rw [hempty] at htext
          exact hne htext.symm
        rw [atHead, atText, htext, if_neg hne, if_neg (by simpa using hfull)]

theorem SheetTokens.balanced (h : SheetTokens minify kind ts fs) :
    BracketBalanced ts := by
  have hgroup {blanks inner ts : List Token} {opener closer : Token}
      (hblanks : ∀ t ∈ blanks, t.type = .whitespace) (hopener : opener.type = .openBrace)
      (hcloser : closer.type = .closeBrace) (hinner : BracketBalanced inner) (h : BracketBalanced ts) :
      BracketBalanced (blanks ++ opener :: (inner ++ closer :: ts)) :=
    (Grouped.nil.append_blanks hblanks).balanced.append
      (.group (by rw [hopener, hcloser]; rfl) hinner h)
  induction h with
  | nil => exact .nil
  | blank ht _ ih => exact .single (isSingle_blank ht) ih
  | rule _ hhead hblanks hopener hcloser _ _ ihinner ih =>
      obtain ⟨vs, hhead, -⟩ := hhead
      exact hhead.grouped.balanced.append (hgroup hblanks hopener hcloser ihinner ih)
  | @statement _ keyword semicolon front ts prelude fs hkeyword _ hprelude hsemicolon _ ih =>
      obtain ⟨vs, hfront, -⟩ := hprelude.exists_groups keyword
      exact .single (.of_type hkeyword rfl rfl (by decide))
        (hfront.grouped.balanced.append (.single (.of_type hsemicolon rfl rfl (by decide)) ih))
  | @group _ keyword _ _ _ _ _ _ _ _ _ hkeyword _ hprelude hblanks hopener hcloser _ _ ihinner ih =>
      obtain ⟨vs, hfront, -⟩ := hprelude.exists_groups keyword
      exact .single (.of_type hkeyword rfl rfl (by decide))
        (hfront.grouped.balanced.append (hgroup hblanks hopener hcloser ihinner ih))
  | ended _ ih => exact ih
  | declaration _ hfront hsemicolon _ ih =>
      exact hfront.balanced.append (.single (.of_type hsemicolon rfl rfl (by decide)) ih)
  | final _ hfront => exact hfront.balanced

end Tokens

namespace Read

variable {minify : Bool} {r : Reader}

/-- Without a step left nothing is read, so only the runs that have one need a look. -/
theorem Takes.of_steps {α : Type} (x : Nat → Read α) {a : α} {rest : List Item}
    (hzero : x 0 = Read.exhausted) (hsucc : ∀ n, Takes (x (n + 1)) r a rest) (n : Nat) :
    Takes (x n) r a rest := by
  cases n with
  | zero =>
      rw [hzero]
      exact .exhausted
  | succ n => exact hsucc n

/-! ## Declarations -/

theorem skips_declarationEnd {t : Token} (ht : t.type ≠ .semicolon) :
    Skips declarationEnd t := by
  intro read r rest hitems
  have hinside : r.cursor.atExpansionEnd = false := by
    rw [Cursor.atExpansionEnd, hitems]
  unfold declarationEnd
  rw [bind_ok (peek_run _ r), Cursor.peek_of_blank Item.blank_nil hitems]
  dsimp only
  rw [bind_ok (peek_run _ r), hinside]
  simp [Value.hasType, ht]
  rfl

/-- A declaration ends behind its semicolon. -/
theorem takes_declarationEnd_semicolon {semicolon : Token} (hsemicolon : semicolon.type = .semicolon)
    {rest : List Item} (hitems : r.cursor.items = .value (.token semicolon) :: rest)
    (read : List Value) :
    Takes (declarationEnd read) r (some read.reverse) rest := by
  have hinside : r.cursor.atExpansionEnd = false := by
    rw [Cursor.atExpansionEnd, hitems]
  unfold declarationEnd
  refine .peek ?_
  simp only [Cursor.peek_of_blank Item.blank_nil hitems]
  refine .peek ?_
  simp only [hinside, Bool.false_eq_true, if_false, Value.hasType, hsemicolon, BEq.rfl, if_true]
  exact (takes_next Item.blank_nil hitems).bind fun s hs _ => .pure hs

/-- A declaration ends where nothing is left. -/
theorem takes_declarationEnd_nil (hitems : r.cursor.items = []) (read : List Value) :
    Takes (declarationEnd read) r (some read.reverse) [] := by
  have hfront : r.cursor.peek 0 = none := by
    rw [Cursor.peek, hitems]
    rfl
  unfold declarationEnd
  refine .peek ?_
  rw [hfront]
  exact .pure hitems

/-- A declaration is read as one with the same text. -/
theorem takes_declaration {d : Declaration} {ts : List Token} (h : DeclarationTokens minify d ts) :
    ∃ d', declarationText minify d' = declarationText minify d ∧
      ∀ {r : Reader} {last rest : List Item} (n : Nat),
        (∀ v ∈ Item.first? last, v.hasType .ident = false) →
        (∀ (s : Reader) (read : List Value), s.cursor.items = last →
          Takes (declarationEnd read) s (some read.reverse) rest) →
        r.cursor.items = tokenItems ts ++ last → Takes (declaration n) r d' rest := by
  cases h with
  | @intro name colon blanks tail hname htext hcolon hblanks hreads =>
  obtain ⟨vs, value, hgrouped, hskips, hsplit, hvalue⟩ := hreads
  refine ⟨⟨name, colon, value, d.important⟩, ?_, fun {r last rest} n hlast hend hitems => ?_⟩
  · rw [declarationText, declarationText, htext, hvalue]
  · have hitems' : r.cursor.items = .value (.token name) :: .value (.token colon) ::
        (tokenItems (blanks ++ tail) ++ last) := by
      rw [hitems]
      simp [tokenItems]
    have hvisible : (Value.token colon).isWhitespace = false := by
      simp [Value.isWhitespace, Value.hasType, hcolon]
    unfold declaration
    refine (takes_consume hname rfl hitems').bind fun s hs _ => ?_
    refine (takes_skipWhitespace hvisible [] hs).bind fun t ht _ => ?_
    refine (takes_consume hcolon rfl ht).bind fun u hu _ => ?_
    have hvalues : Takes (collect n declarationEnd []) u (blanks.map .token ++ vs) rest := by
      refine (regroups (hgrouped.blanks_append hblanks)).collect
        (fun v hv => skips_declarationEnd ?_) hlast hu (fun n w hw _ => ?_) n
      · rcases List.mem_append.mp hv with hv | hv
        · obtain ⟨t, ht, rfl⟩ := List.mem_map.mp hv
          simp [Value.firstToken, hblanks t ht]
        · exact hskips v hv
      · refine .of_steps (collect · _ _) (collect_zero _ _) (fun n => ?_) n
        have hread := hend w ((blanks.map Value.token ++ vs).reverse ++ []) hw
        rw [List.append_nil, List.reverse_reverse] at hread
        rw [collect, List.append_nil]
        exact hread.bind fun x hx _ => .pure hx
    refine hvalues.bind fun w hw _ => ?_
    simp only [trimWhitespace_blanks_append hblanks, hsplit]
    exact .pure hw

/-! ## At-rules -/

theorem skips_atRuleEnd (name : Token) {t : Token} (hsemicolon : t.type ≠ .semicolon)
    (hbrace : t.type ≠ .openBrace) :
    Skips (atRuleEnd name) t := by
  intro read r rest hitems
  unfold atRuleEnd
  rw [bind_ok (peek_run _ r), Cursor.peek_of_blank Item.blank_nil hitems]
  simp only [if_neg hsemicolon, if_neg hbrace]
  rfl

/-- No sign stands behind the name of the at-rule. -/
theorem checkDelim_sign {front : List Token} {t : Token}
    (hstarts : ∀ u ∈ (front.dropWhile Token.isWhitespace).head?, u.isDelim "=" = false)
    (ht : t.type = .semicolon ∨ t.type = .openBrace) {rest : List Item}
    (hitems : r.cursor.items = tokenItems front ++ .value (.token t) :: rest) :
    r.cursor.checkDelim r.cursor.blankOffset "=" = false := by
  have hvisible : (Value.token t).isWhitespace = false := by
    rcases ht with ht | ht <;> simp [Value.isWhitespace, Value.hasType, ht]
  have hsign : t.isDelim "=" = false := by
    rcases ht with ht | ht <;> simp [Token.isDelim, ht]
  have hskip : r.cursor.skipWhitespace.items =
      tokenItems (front.dropWhile Token.isWhitespace) ++ .value (.token t) :: rest := by
    rw [← skipBlanks_tokenItems hvisible front rest r.cursor.expansions r.cursor.last, ← hitems]
    rfl
  rw [Cursor.checkDelim, Cursor.peek_blankOffset]
  cases hfront : front.dropWhile Token.isWhitespace with
  | nil =>
      rw [hfront] at hskip
      rw [Cursor.peek_of_blank Item.blank_nil hskip]
      exact hsign
  | cons u us =>
      rw [hfront] at hskip hstarts
      rw [Cursor.peek_of_blank Item.blank_nil hskip]
      exact hstarts u rfl

/-- An at-rule is read up to its end. -/
theorem takes_atRule {keyword t : Token} {front : List Token} {vs : List Value} {rest rest' : List Item}
    {rule : AtRule} (hkeyword : keyword.type = .atKeyword) (hname : IsAtName keyword.text)
    (hfront : PreludeGroups front vs) (ht : t.type = .semicolon ∨ t.type = .openBrace)
    (halias : r.scopes.findAlias? keyword.text = none)
    (hitems : r.cursor.items = tokenItems (keyword :: front) ++ .value (.token t) :: rest)
    (hend : ∀ s : Reader, s.cursor.items = .value (.token t) :: rest →
      Takes (atRuleEnd keyword vs.reverse) s (some rule) rest') (n : Nat) :
    Takes (atRule n) r (some rule) rest' := by
  have hrule (s : Reader) (hs : s.cursor.items = tokenItems front ++ .value (.token t) :: rest) :
      Takes (do return some (← collect n (atRuleEnd keyword) [])) s (some rule) rest' := by
    have hvalues : Takes (collect n (atRuleEnd keyword) []) s rule rest' := by
      refine (regroups hfront.grouped).collect
        (fun v hv => skips_atRuleEnd keyword (hfront.ends v hv).1 (hfront.ends v hv).2)
        (fun v hv => ?_) hs (fun n u hu _ => ?_) n
      · cases hv
        rcases ht with ht | ht <;> simp [Value.hasType, ht]
      · refine .of_steps (collect · _ _) (collect_zero _ _) (fun n => ?_) n
        rw [collect, List.append_nil]
        exact (hend u hu).bind fun w hw _ => .pure hw
    exact hvalues.bind fun u hu _ => .pure hu
  unfold atRule
  refine (takes_consume hkeyword rfl hitems).bind fun s hs hscopes => ?_
  simp only [if_neg hname.mixin, if_neg hname.inclusion]
  unfold aliasOrRule
  split
  · refine .peek (.peek ?_)
    have hlook : look (·.scopes) s = .ok r.scopes s := by
      rw [← hscopes]
      rfl
    rw [checkDelim_sign hfront.starts ht hs, if_neg Bool.false_ne_true]
    refine .of_run (bind_ok hlook) ?_
    simp only [halias]
    exact hrule s hs
  · exact hrule s hs

/-- An at-rule that ends at a semicolon. -/
theorem takes_statement {keyword semicolon : Token} {front : List Token} {vs : List Value}
    {rest : List Item} (hkeyword : keyword.type = .atKeyword) (hname : IsAtName keyword.text)
    (hfront : PreludeGroups front vs) (hsemicolon : semicolon.type = .semicolon)
    (halias : r.scopes.findAlias? keyword.text = none)
    (hitems : r.cursor.items = tokenItems (keyword :: (front ++ [semicolon])) ++ rest) (n : Nat) :
    Takes (atRule n) r (some ⟨keyword, trimWhitespace vs, none⟩) rest := by
  have hsplit : r.cursor.items = tokenItems (keyword :: front) ++ .value (.token semicolon) :: rest := by
    rw [hitems]
    simp [tokenItems]
  refine takes_atRule hkeyword hname hfront (.inl hsemicolon) halias hsplit (fun s hs => ?_) n
  unfold atRuleEnd
  refine .peek ?_
  simp only [Cursor.peek_of_blank Item.blank_nil hs, hsemicolon, if_true, List.reverse_reverse]
  exact (takes_next Item.blank_nil hs).bind fun t ht _ => .pure ht

/-- An at-rule up to its block, which stays flat. -/
theorem takes_group {keyword opener closer : Token} {front inner : List Token} {vs : List Value}
    {rest : List Item} (hkeyword : keyword.type = .atKeyword) (hname : IsAtName keyword.text)
    (hfront : PreludeGroups front vs) (hopener : opener.type = .openBrace)
    (hcloser : closer.type = .closeBrace) (hinner : BracketBalanced inner)
    (halias : r.scopes.findAlias? keyword.text = none)
    (hitems : r.cursor.items =
      tokenItems (keyword :: (front ++ opener :: (inner ++ [closer]))) ++ rest) (n : Nat) :
    Takes (atRule n) r
      (some ⟨keyword, trimWhitespace vs, some ⟨opener, inner.map .token, some closer⟩⟩) rest := by
  have hsplit : r.cursor.items = tokenItems (keyword :: front) ++ .value (.token opener) ::
      (tokenItems inner ++ .value (.token closer) :: rest) := by
    rw [hitems]
    simp [tokenItems]
  have hpartner : opener.type.partner? = some closer.type := by
    rw [hopener, hcloser]
    rfl
  refine takes_atRule hkeyword hname hfront (.inr hopener) halias hsplit (fun s hs => ?_) n
  unfold atRuleEnd
  refine .peek ?_
  simp only [Cursor.peek_of_blank Item.blank_nil hs, hopener, reduceCtorEq, if_false, if_true,
    List.reverse_reverse]
  exact (takes_rawBlock hpartner hinner Item.blank_nil hs).bind fun t ht _ => .pure ht

/-! ## Bodies -/

/-- The entries of a body of a kind, read behind those already collected in reverse. -/
def bodyEntries : BodyKind → Nat → List Entry → Read (List Entry)
  | .rules => ruleList
  | .declarations => styleEntries
  | .keyframes => keyframes

/-- No alias is bound. -/
def NoAliases (scopes : Scopes) : Prop :=
  ∀ name, scopes.findAlias? name = none

theorem NoAliases.enter {scopes : Scopes} (h : NoAliases scopes) :
    NoAliases scopes.enter := by
  intro name
  exact h name

/-- What is read of the values of a block, in a scope of its own. -/
theorem takes_within {x : Read (List Entry)} {es : List Entry} {inner : List Token} {rest : List Item}
    (hitems : r.cursor.items = rest) (hclean : NoAliases r.scopes)
    (h : ∀ s : Reader, s.cursor.items = tokenItems inner → NoAliases s.scopes → Takes x s es []) :
    Takes (within (inner.map .token) (nested (inScope x))) r es rest := by
  have hinside : Takes (nested (inScope x))
      { r with cursor := .ofValues (inner.map .token) r.cursor.depth } es [] := by
    refine .nested fun s hs hscopes => .inScope fun t ht henter => h t ?_ ?_
    · rw [ht, hs]
      simp [Cursor.ofValues, tokenItems, Function.comp_def]
    · rw [henter, hscopes]
      exact hclean.enter
  rcases hinside with ⟨e, s, hrun, hcut⟩ | ⟨s, hrun, -, hscopes⟩
  · exact .inl ⟨e, _, (within_run _).trans (andFinally_error hrun), hcut⟩
  · exact .inr ⟨_, (within_run _).trans (andFinally_ok hrun), hitems, hscopes⟩

variable {kind : BodyKind} {read es : List Entry} {rest mid : List Item}

/-- A sequence goes on alike where its first part does the same. -/
theorem bind_congr {α β : Type} {x : Read α} {s : Reader} (h : x r = x s) (f : α → Read β) :
    (x >>= f) r = (x >>= f) s := by
  change EStateM.bind x f r = EStateM.bind x f s
  simp only [EStateM.bind, h]

/-- Whitespace leaves no entry. -/
theorem takes_body_blank {blank : Token} (hblank : blank.type = .whitespace)
    (hitems : r.cursor.items = .value (.token blank) :: mid)
    (hnext : ∀ (n : Nat) (s : Reader), s.cursor.items = mid → s.scopes = r.scopes →
      Takes (bodyEntries kind n read) s es rest) (n : Nat) :
    Takes (bodyEntries kind n read) r es rest := by
  have hwhite := isWhitespace_blank hblank
  have hskip : r.cursor.skipWhitespace =
      { r.cursor with items := mid, last := (Value.token blank).start }.skipWhitespace := by
    unfold Cursor.skipWhitespace
    rw [hitems, Cursor.skipBlanks, if_pos hwhite]
  have hrule (n : Nat) : nextRule (n + 1) r = nextRule (n + 1)
      { r with cursor := { r.cursor with items := mid, last := (Value.token blank).start } } := by
    have hleft : skipWhitespace r = .ok () { r with cursor := r.cursor.skipWhitespace } := rfl
    rw [nextRule, bind_ok hleft, hskip]
    rfl
  -- Both lists of rules start with the next rule, which is the same one behind the whitespace.
  have hlist {x : Nat → Read (List Entry)} {f : Nat → Option Rule → Read (List Entry)}
      (hzero : x 0 = exhausted) (hx : ∀ n, x (n + 1) = nextRule n >>= f n)
      (hnext : ∀ (n : Nat) (s : Reader), s.cursor.items = mid → s.scopes = r.scopes →
        Takes (x n) s es rest) : Takes (x n) r es rest := by
    obtain _ | _ | n := n
    · rw [hzero]
      exact .exhausted
    · rw [hx, nextRule]
      exact .inl ⟨.exhausted, r, rfl, trivial⟩
    · have hgo := hnext (n + 2)
        { r with cursor := { r.cursor with items := mid, last := (Value.token blank).start } } rfl rfl
      rw [hx] at hgo ⊢
      unfold Takes
      rw [bind_congr (hrule n)]
      exact hgo
  cases kind with
  | rules =>
      exact hlist (x := (ruleList · read)) (ruleList_zero read) (fun n => by rw [ruleList]) hnext
  | keyframes =>
      exact hlist (x := (keyframes · read)) (keyframes_zero read) (fun n => by rw [keyframes]) hnext
  | declarations =>
      change Takes (styleEntries n read) r es rest
      refine .of_steps (styleEntries · _) (styleEntries_zero _) (fun n => ?_) n
      have hstatement : Takes (styleStatement n (.token blank)) r none mid := by
        refine .of_steps (styleStatement · _) (styleStatement_zero _) (fun n => ?_) n
        rw [styleStatement, if_pos (.inl hblank)]
        exact (takes_next Item.blank_nil hitems).bind fun s hs _ => .pure hs
      rw [styleEntries]
      refine .peek ?_
      rw [Cursor.peek_of_blank Item.blank_nil hitems]
      exact hstatement.bind fun s hs hscopes => hnext n s hs hscopes

/-- At-rules in a style block and among keyframes are inside a style rule. -/
def inStyle (kind : BodyKind) : Bool :=
  kind != .rules

/-- An at-rule and the entries behind it. -/
theorem takes_body_atRule {keyword : Token} (hkeyword : keyword.type = .atKeyword) {tail : List Item}
    (hitems : r.cursor.items = .value (.token keyword) :: tail) (rule : AtRule) (e : Entry)
    (mid : List Item)
    (hrule : ∀ (n : Nat) (s : Reader), s.cursor.items = .value (.token keyword) :: tail →
      s.scopes = r.scopes → Takes (atRule n) s (some rule) mid)
    (hresolve : ∀ (n : Nat) (s : Reader), s.cursor.items = mid → s.scopes = r.scopes →
      Takes (resolveAtRule n rule (inStyle kind)) s e mid)
    (hnext : ∀ (n : Nat) (s : Reader), s.cursor.items = mid → s.scopes = r.scopes →
      Takes (bodyEntries kind n (e :: read)) s es rest) (n : Nat) :
    Takes (bodyEntries kind n read) r es rest := by
  have hvisible : (Value.token keyword).isWhitespace = false := by
    simp [Value.isWhitespace, Value.hasType, hkeyword]
  have hfound (n : Nat) : Takes (nextRule n) r (some (.atRule rule)) mid := by
    cases n with
    | zero => exact .exhausted
    | succ n =>
        rw [nextRule]
        refine (takes_skipWhitespace hvisible [] hitems).bind fun s hs hscopes => .peek ?_
        simp only [Cursor.peek_of_blank Item.blank_nil hs, hkeyword, reduceCtorEq, or_self, if_false,
          if_true]
        exact (hrule n s hs hscopes).bind fun t ht _ => .pure ht
  have hentry (n : Nat) (s : Reader) (hs : s.cursor.items = mid) (hscopes : s.scopes = r.scopes)
      {f : Entry → Read (List Entry)} (hf : f e = bodyEntries kind n (e :: read)) :
      Takes (do let entry ← resolveAtRule n rule (inStyle kind); f entry) s es rest := by
    refine (hresolve n s hs hscopes).bind fun t ht hscopes' => ?_
    rw [hf]
    exact hnext n t ht (hscopes'.trans hscopes)
  cases kind with
  | rules =>
      change Takes (ruleList n read) r es rest
      refine .of_steps (ruleList · _) (ruleList_zero _) (fun n => ?_) n
      rw [ruleList]
      exact (hfound n).bind fun s hs hscopes => hentry n s hs hscopes rfl
  | keyframes =>
      change Takes (keyframes n read) r es rest
      refine .of_steps (keyframes · _) (keyframes_zero _) (fun n => ?_) n
      rw [keyframes]
      exact (hfound n).bind fun s hs hscopes => hentry n s hs hscopes rfl
  | declarations =>
      change Takes (styleEntries n read) r es rest
      refine .of_steps (styleEntries · _) (styleEntries_zero _) (fun n => ?_) n
      have hstatement : Takes (styleStatement n (.token keyword)) r (some e) mid := by
        refine .of_steps (styleStatement · _) (styleStatement_zero _) (fun n => ?_) n
        rw [styleStatement, if_neg (by simp [hkeyword]), if_pos hkeyword]
        refine (hrule n r hitems rfl).bind fun s hs hscopes => ?_
        exact (hresolve n s hs hscopes).bind fun t ht _ => .pure ht
      rw [styleEntries]
      refine .peek ?_
      rw [Cursor.peek_of_blank Item.blank_nil hitems]
      exact hstatement.bind fun s hs hscopes => hnext n s hs hscopes

/-- A style block is read as its entries. -/
theorem takes_styleBlock {opener : Token} {closer : Option Token} {inner : List Token}
    {body : List Entry}
    (hbody : ∀ (n : Nat) (s : Reader), s.cursor.items = tokenItems inner → NoAliases s.scopes →
      Takes (styleEntries n []) s body [])
    (hclean : NoAliases r.scopes) (hitems : r.cursor.items = rest) (n : Nat) :
    Takes (styleBlock n ⟨opener, inner.map .token, closer⟩) r body rest := by
  refine .of_steps (styleBlock · _) (styleBlock_zero _) (fun n => ?_) n
  rw [styleBlock]
  exact takes_within hitems hclean (hbody n)

/-- A block is read as the body of the at-rule in front of it. -/
theorem takes_resolveAtRule {name opener : Token} {closer : Option Token} {prelude : List Value}
    {inner : List Token} {body : List Entry}
    (hbody : ∀ (n : Nat) (s : Reader), s.cursor.items = tokenItems inner → NoAliases s.scopes →
      Takes (bodyEntries (kind.inside name.text) n []) s body [])
    (hclean : NoAliases r.scopes) (hitems : r.cursor.items = rest) (n : Nat) :
    Takes (resolveAtRule n ⟨name, prelude, some ⟨opener, inner.map .token, closer⟩⟩ (inStyle kind)) r
      (.group name prelude opener body closer) rest := by
  have hresolved {x : Read (List Entry)} (hx : Takes x r body rest) :
      Takes (do return AtRule.resolved ⟨name, prelude, some ⟨opener, inner.map .token, closer⟩⟩ (← x)) r
        (.group name prelude opener body closer) rest :=
    hx.bind fun s hs _ => .pure hs
  refine .of_steps (resolveAtRule · _ _) (resolveAtRule_zero _ _) (fun n => ?_) n
  rw [resolveAtRule]
  unfold BodyKind.inside at hbody
  cases hname : BodyKind.ofName name.text with
  | keyframes =>
      simp only [hname] at hbody ⊢
      exact hresolved (takes_within hitems hclean (hbody n))
  | declarations =>
      simp only [hname] at hbody ⊢
      exact hresolved (takes_styleBlock hbody hclean hitems n)
  | rules =>
      simp only [hname] at hbody ⊢
      cases kind with
      | rules => exact hresolved (takes_within hitems hclean (hbody n))
      | declarations | keyframes => exact hresolved (takes_styleBlock hbody hclean hitems n)

theorem RuleHead.append_blanks {front blanks : List Token} {vs : List Value}
    (h : RuleHead front vs) (hblanks : ∀ t ∈ blanks, t.type = .whitespace) :
    RuleHead (front ++ blanks) (vs ++ blanks.map .token) where
  grouped := h.grouped.append_blanks hblanks
  starts := by
    intro v hv
    rw [List.dropWhile_append] at hv
    split at hv
    · rw [List.dropWhile_eq_nil_iff.mpr (isWhitespace_blanks hblanks)] at hv
      cases hv
    · next hfull =>
        refine h.starts v ?_
        rwa [List.head?_append_of_ne_nil _ (by simpa using hfull)] at hv
  braces := by
    refine List.forall_mem_append.mpr ⟨h.braces, List.forall_mem_map.mpr fun t ht => ?_⟩
    simp [Value.firstToken, hblanks t ht]

/-- A rule and the entries behind it. -/
theorem takes_body_rule {head : List Char} {opener closer : Token} {front blanks inner : List Token}
    {body : List Entry} {ds : List Declaration} (hfull : minify = true → kind = .rules → ds ≠ [])
    (hhead : ReadsHead minify kind head front) (hblanks : ∀ t ∈ blanks, t.type = .whitespace)
    (hopener : opener.type = .openBrace) (hcloser : closer.type = .closeBrace)
    (hinner : BracketBalanced inner) (hshown : Shown minify .declarations body [.declarations ds true])
    (hbody : ∀ (n : Nat) (s : Reader), s.cursor.items = tokenItems inner → NoAliases s.scopes →
      Takes (styleEntries n []) s body []) :
    ∃ e : Entry, e.Shows minify (.rule head ds) ∧
      ∀ (r : Reader) (read es : List Entry) (mid rest : List Item) (n : Nat),
        r.cursor.items = tokenItems (front ++ (blanks ++ opener :: (inner ++ [closer]))) ++ mid →
        NoAliases r.scopes →
        (∀ (n : Nat) (s : Reader), s.cursor.items = mid → s.scopes = r.scopes →
          Takes (bodyEntries kind n (e :: read)) s es rest) →
        Takes (bodyEntries kind n read) r es rest := by
  obtain ⟨vs, hvs, hkind⟩ := hhead
  have hprelude : trimWhitespace ((vs ++ blanks.map Value.token).dropWhile Value.isWhitespace) =
      trimWhitespace vs := by
    rw [← trimWhitespace_append_blanks vs (isWhitespace_blanks hblanks), trimWhitespace,
      List.dropWhile_idempotent]
    rfl
  have hfound (r : Reader) (mid : List Item) (n : Nat) (hitems : r.cursor.items =
      tokenItems (front ++ (blanks ++ opener :: (inner ++ [closer]))) ++ mid) :
      Takes (nextRule n) r (some (.qualified ⟨trimWhitespace vs,
        ⟨opener, inner.map .token, some closer⟩⟩)) mid := by
    rw [← hprelude]
    refine takes_nextRule_head (hvs.append_blanks hblanks) hopener hcloser hinner ?_ n
    rw [hitems]
    simp [tokenItems]
  cases kind with
  | declarations => exact hkind.elim
  | rules =>
      obtain ⟨list, hparse, hhead⟩ := hkind
      refine ⟨.style (trimWhitespace vs) list body, shows_style hhead (hfull · rfl) hshown, ?_⟩
      intro r read es mid rest n hitems hclean hnext
      change Takes (ruleList n read) r es rest
      refine .of_steps (ruleList · _) (ruleList_zero _) (fun n => ?_) n
      rw [ruleList]
      refine (hfound r mid n hitems).bind fun s hs hscopes => ?_
      have hentry : Takes (styleRule n ⟨trimWhitespace vs, ⟨opener, inner.map .token, some closer⟩⟩)
          s (.style (trimWhitespace vs) list body) mid := by
        refine .of_steps (styleRule · _) (styleRule_zero _) (fun n => ?_) n
        rw [styleRule, hparse]
        refine (takes_styleBlock hbody (by rwa [hscopes]) hs n).bind fun t ht _ => .pure ht
      exact hentry.bind fun t ht hscopes' => hnext n t ht (hscopes'.trans hscopes)
  | keyframes =>
      refine ⟨.keyframe (trimWhitespace vs) opener body (some closer), shows_keyframe hkind hshown, ?_⟩
      intro r read es mid rest n hitems hclean hnext
      change Takes (keyframes n read) r es rest
      refine .of_steps (keyframes · _) (keyframes_zero _) (fun n => ?_) n
      rw [keyframes]
      refine (hfound r mid n hitems).bind fun s hs hscopes => ?_
      refine (takes_styleBlock hbody (by rwa [hscopes]) hs n).bind fun t ht hscopes' => ?_
      exact hnext n t ht (hscopes'.trans hscopes)

/-- A declaration and the entries behind it. -/
theorem takes_body_declaration {d : Declaration} {front : List Token}
    (hfront : DeclarationTokens minify d front) :
    ∃ d', declarationText minify d' = declarationText minify d ∧
      ∀ {r : Reader} {read es : List Entry} {last mid rest : List Item} (n : Nat),
        (∀ v ∈ Item.first? last, v.hasType .ident = false) →
        (∀ (s : Reader) (read : List Value), s.cursor.items = last →
          Takes (declarationEnd read) s (some read.reverse) mid) →
        r.cursor.items = tokenItems front ++ last →
        (∀ (n : Nat) (s : Reader), s.cursor.items = mid → s.scopes = r.scopes →
          Takes (styleEntries n (.declaration d' :: read)) s es rest) →
        Takes (styleEntries n read) r es rest := by
  obtain ⟨d', htext, htakes⟩ := takes_declaration hfront
  refine ⟨d', htext, fun {r read es last mid rest} n hlast hend hitems hnext => ?_⟩
  obtain ⟨name, tail, rfl, hname⟩ : ∃ name tail, front = name :: tail ∧ name.type = .ident := by
    cases hfront with
    | intro hname => exact ⟨_, _, rfl, hname⟩
  have hstart : isVariableStart r = .ok false r := by
    rw [isVariableStart, peek_run]
    simp [Cursor.checkDelim, Cursor.peek_of_blank Item.blank_nil hitems, Value.isDelim, Token.isDelim,
      hname]
  refine .of_steps (styleEntries · _) (styleEntries_zero _) (fun n => ?_) n
  have hstatement : Takes (styleStatement n (.token name)) r (some (.declaration d')) mid := by
    refine .of_steps (styleStatement · _) (styleStatement_zero _) (fun n => ?_) n
    rw [styleStatement, if_neg (by simp [hname]), if_neg (by simp [hname])]
    refine .of_run (bind_ok hstart) ?_
    rw [if_neg Bool.false_ne_true, if_pos hname]
    exact (htakes n hlast hend hitems).bind fun s hs _ => .pure hs
  rw [styleEntries]
  refine .peek ?_
  rw [Cursor.peek_of_blank Item.blank_nil hitems]
  exact hstatement.bind fun s hs hscopes => hnext n s hs hscopes

end Read

namespace Read

variable {minify : Bool}

theorem tokenItems_append (ts us : List Token) :
    tokenItems (ts ++ us) = tokenItems ts ++ tokenItems us :=
  List.map_append

/-- Nothing is left to read. -/
theorem takes_body_nil {r : Reader} {kind : BodyKind} (hitems : r.cursor.items = [])
    (read : List Entry) (n : Nat) :
    Takes (bodyEntries kind n read) r read.reverse [] := by
  have hfront : r.cursor.peek 0 = none := by
    rw [Cursor.peek, hitems]
    rfl
  have hnone (n : Nat) : Takes (nextRule n) r none [] := by
    cases n with
    | zero => exact .exhausted
    | succ n =>
        have hskip : Takes skipWhitespace r () [] := by
          refine .inr ⟨{ r with cursor := r.cursor.skipWhitespace }, rfl, ?_, rfl⟩
          simp [Cursor.skipWhitespace, hitems, Cursor.skipBlanks]
        rw [nextRule]
        refine hskip.bind fun s hs _ => .peek ?_
        rw [show s.cursor.peek 0 = none by rw [Cursor.peek, hs]; rfl]
        exact .pure hs
  cases kind with
  | rules =>
      change Takes (ruleList n read) r read.reverse []
      refine .of_steps (ruleList · _) (ruleList_zero _) (fun n => ?_) n
      rw [ruleList]
      exact (hnone n).bind fun s hs _ => .pure hs
  | keyframes =>
      change Takes (keyframes n read) r read.reverse []
      refine .of_steps (keyframes · _) (keyframes_zero _) (fun n => ?_) n
      rw [keyframes]
      exact (hnone n).bind fun s hs _ => .pure hs
  | declarations =>
      change Takes (styleEntries n read) r read.reverse []
      refine .of_steps (styleEntries · _) (styleEntries_zero _) (fun n => ?_) n
      rw [styleEntries]
      refine .peek ?_
      rw [hfront]
      exact .pure hitems

/-- What is read of the tokens of flat rules. -/
theorem takes_flats {kind : BodyKind} {ts : List Token} {fs : List Flat}
    (h : SheetTokens minify kind ts fs) :
    ∃ es, Shown minify kind es fs ∧ ∀ (n : Nat) (r : Reader) (read : List Entry),
      r.cursor.items = tokenItems ts → NoAliases r.scopes →
        Takes (bodyEntries kind n read) r (read.reverse ++ es) [] := by
  induction h with
  | nil =>
      refine ⟨[], .nil, fun n r read hitems _ => ?_⟩
      rw [List.append_nil]
      exact takes_body_nil hitems read n
  | blank ht _ ih =>
      obtain ⟨es, hshown, htakes⟩ := ih
      refine ⟨es, hshown, fun n r read hitems hclean => ?_⟩
      exact takes_body_blank ht hitems (fun n s hs hscopes => htakes n s read hs (by rwa [hscopes])) n
  | @rule kind opener closer front blanks inner ts head ds fs hfull hhead hblanks hopener hcloser hinner _
      ihinner ih =>
      obtain ⟨body, hbody, hinside⟩ := ihinner
      obtain ⟨es, hshown, htakes⟩ := ih
      obtain ⟨e, he, hrule⟩ := takes_body_rule hfull hhead hblanks hopener hcloser hinner.balanced hbody
        fun n s hs hclean => hinside n s [] hs hclean
      refine ⟨e :: es, .entry he hshown, fun n r read hitems hclean => ?_⟩
      refine hrule r read _ (tokenItems ts) [] n ?_ hclean fun n s hs hscopes => ?_
      · rw [hitems, ← tokenItems_append]
        simp
      · have hmore := htakes n s (e :: read) hs (by rwa [hscopes])
        rwa [List.reverse_cons, List.append_assoc] at hmore
  | @statement kind keyword semicolon front ts prelude fs hkeyword hname hprelude hsemicolon _ ih =>
      obtain ⟨es, hshown, htakes⟩ := ih
      obtain ⟨vs, hfront, hhead⟩ := hprelude.exists_groups keyword
      refine ⟨.statement keyword (trimWhitespace vs) :: es, .entry (shows_statement hhead) hshown,
        fun n r read hitems hclean => ?_⟩
      refine takes_body_atRule hkeyword hitems ⟨keyword, trimWhitespace vs, none⟩
        (.statement keyword (trimWhitespace vs)) (tokenItems ts) (fun n s hs hscopes => ?_)
        (fun n s hs _ => ?_) (fun n s hs hscopes => ?_) n
      · refine takes_statement hkeyword hname hfront hsemicolon (by rw [hscopes]; exact hclean _) ?_ n
        rw [hs, ← tokenItems_append]
        simp [tokenItems]
      · refine .of_steps (resolveAtRule · _ _) (resolveAtRule_zero _ _) (fun n => ?_) n
        rw [resolveAtRule]
        exact .pure hs
      · have hmore := htakes n s (.statement keyword (trimWhitespace vs) :: read) hs (by rwa [hscopes])
        rwa [List.reverse_cons, List.append_assoc] at hmore
  | @group kind keyword opener closer front blanks inner ts prelude body fs hkeyword hname hprelude hblanks
      hopener hcloser hinner _ ihinner ih =>
      obtain ⟨entries, hbody, hinside⟩ := ihinner
      obtain ⟨es, hshown, htakes⟩ := ih
      obtain ⟨vs, hfront, hhead⟩ := hprelude.exists_groups keyword
      refine ⟨.group keyword (trimWhitespace vs) opener entries (some closer) :: es,
        .entry (shows_group hhead hbody) hshown, fun n r read hitems hclean => ?_⟩
      refine takes_body_atRule hkeyword hitems
        ⟨keyword, trimWhitespace vs, some ⟨opener, inner.map .token, some closer⟩⟩
        (.group keyword (trimWhitespace vs) opener entries (some closer)) (tokenItems ts)
        (fun n s hs hscopes => ?_) (fun n s hs hscopes => ?_) (fun n s hs hscopes => ?_) n
      · rw [← trimWhitespace_append_blanks vs (isWhitespace_blanks hblanks)]
        refine takes_group hkeyword hname (hfront.append_blanks hblanks) hopener hcloser hinner.balanced
          (by rw [hscopes]; exact hclean _) ?_ n
        rw [hs, ← tokenItems_append]
        simp [tokenItems]
      · exact takes_resolveAtRule (fun n s hs hclean => hinside n s [] hs hclean) (by rwa [hscopes]) hs n
      · have hmore := htakes n s (.group keyword (trimWhitespace vs) opener entries (some closer) :: read)
          hs (by rwa [hscopes])
        rwa [List.reverse_cons, List.append_assoc] at hmore
  | ended _ ih =>
      obtain ⟨es, hshown, htakes⟩ := ih
      exact ⟨es, .ended hshown, htakes⟩
  | @declaration front ts semicolon d ds last fs hlast hfront hsemicolon _ ih =>
      obtain ⟨es, hshown, htakes⟩ := ih
      obtain ⟨d', htext, hread⟩ := takes_body_declaration hfront
      refine ⟨.declaration d' :: es, .declaration hlast htext hshown, fun n r read hitems hclean => ?_⟩
      have hend (s : Reader) (read : List Value)
          (hs : s.cursor.items = .value (.token semicolon) :: tokenItems ts) :=
        takes_declarationEnd_semicolon hsemicolon hs read
      refine hread n (fun v hv => ?_) hend ?_ fun n s hs hscopes => ?_
      · cases hv
        simp [Value.hasType, hsemicolon]
      · rw [hitems, tokenItems_append]
        rfl
      · have hmore := htakes n s (.declaration d' :: read) hs (by rwa [hscopes])
        rwa [List.reverse_cons, List.append_assoc] at hmore
  | @final front d ds last fs hlast hfront _ ih =>
      obtain ⟨es, hshown, htakes⟩ := ih
      obtain ⟨d', htext, hread⟩ := takes_body_declaration hfront
      refine ⟨.declaration d' :: es, .declaration hlast htext hshown, fun n r read hitems hclean => ?_⟩
      refine hread n (fun v hv => ?_) (fun s read hs => takes_declarationEnd_nil hs read)
        (by rw [hitems, List.append_nil]) fun n s hs hscopes => ?_
      · cases hv
      · have hmore := htakes n s (.declaration d' :: read) hs (by rwa [hscopes])
        rwa [List.reverse_cons, List.append_assoc] at hmore

end Read
end Cascade
