import Cascade.Compile
import Cascade.Proofs.Importance
import Cascade.Proofs.Inclusions
import Cascade.Proofs.ResemblingSelectors
import Cascade.Proofs.SingleTokens
import Cascade.Proofs.SpacedTexts

/-!
# Flat stylesheets

The text of a flat stylesheet is read as its rules, token by token, where each selector,
prelude and value in it is by itself.  This holds in both forms; the short form leaves out
what it can between these pieces, so that the last declaration of a body runs up to the
brace.

**Method.**  `FlatSheet` asks of each piece of the sheet that its text is spelled by joined
tokens and that these are read as the piece (`Piece`); where they stand does not matter
(`ReadsHead.of_same`).  The text is followed from its end to its start: each part of it is
read as tokens in front of what is read behind it (`Continues`, `Fills`).

**Results.**
* `ReadsHead.of_same`, `Declaration.ReadsTail.of_same`, `ReadsPrelude.of_same`: reading a piece
  does not depend on places.
* `fills_declarations`: the tokens of declarations.
* `fills_flats`: the tokens of flat rules.
-/

namespace Cascade
open Lexer Output

/-! ## Pieces -/

/-- The text is spelled by the tokens, without whitespace at its ends, and the tokens are read as they
should be. -/
structure Piece (text : List Char) (ts : List Token) (Reads : List Token → Prop) : Prop where
  text : textOf ts = text
  readable : ∀ t ∈ ts, t.Readable
  joined : Joined ts
  starts : ts.head?.any Token.isWhitespace = false
  ends : ts.getLast?.any Token.isWhitespace = false
  reads : Reads ts

/-- What the body of an at-rule of a name holds that stands in a body of a kind. -/
def BodyKind.inside (outer : BodyKind) (name : String) : BodyKind :=
  match BodyKind.ofName name, outer with
  | .keyframes, _ => .keyframes
  | .rules, .rules => .rules
  | _, _ => .declarations

/-- The tokens are read as the head of a rule in a body of a kind, and it is written as the text. -/
def ReadsHead (minify : Bool) (kind : BodyKind) (head : List Char) (ts : List Token) : Prop :=
  ∃ vs, Read.RuleHead ts vs ∧
    match kind with
    | .rules => ∃ list, Selector.parse (trimWhitespace vs) = .ok list ∧
        joinSelectors minify (resolveSelectors minify [] list) = head
    | .keyframes => valuesText minify (trimWhitespace vs) = head
    | .declarations => False

/-- The text of a declaration behind its colon and the space there. -/
def Declaration.tailText (minify : Bool) (d : Declaration) : List Char :=
  valuesText minify d.value ++
    if d.important then (if minify then [] else [' ']) ++ "!important".toList else []

/-- Behind a colon the tokens are read as a value with the text and the importance of the
declaration. -/
def Declaration.ReadsTail (minify : Bool) (d : Declaration) (ts : List Token) : Prop :=
  ∃ vs value, Grouped ts vs ∧ (∀ v ∈ vs, v.firstToken.type ≠ .semicolon) ∧
    splitImportant (trimWhitespace vs) = .ok (value, d.important) ∧
    valuesText minify value = valuesText minify d.value

/-- The tokens are read as the prelude of an at-rule, and it is written as the text. -/
def ReadsPrelude (minify : Bool) (text : List Char) (ts : List Token) : Prop :=
  ∃ vs, Grouped ts vs ∧
    (∀ v ∈ vs, v.firstToken.type ≠ .semicolon ∧ v.firstToken.type ≠ .openBrace) ∧
    (∀ t ∈ ts.head?, t.isWhitespace = false ∧ t.isDelim "=" = false) ∧
    valuesText minify (trimWhitespace vs) = text

/-- The text names something. -/
def IsNameText (name : String) : Prop :=
  NullFree name.toList ∧ name ≠ ""

/-! ### At other places -/

section Places

variable {minify : Bool} {ts us : List Token}

theorem Read.RuleHead.exists_resembling {ws : List Value} (h : Read.RuleHead ts ws)
    (hsame : SameTokens us ts) :
    ∃ vs, Read.RuleHead us vs ∧ Resemble vs ws := by
  obtain ⟨vs, hvs, hresemble⟩ := h.grouped.exists_resembling hsame
  refine ⟨vs, ⟨hvs, ?_, ?_⟩, hresemble⟩
  · intro v hv
    have hfront := congrArg List.head? hresemble.dropWhile
    rw [List.head?_map, List.head?_map, hv, Option.map_some] at hfront
    obtain ⟨w, hw, hbare⟩ := Option.map_eq_some_iff.mp hfront.symm
    rw [← Value.firstType_of_bare hbare]
    exact h.starts w hw
  · exact hresemble.forall_of_bare (fun v => by rw [v.firstToken_bare]; rfl) h.braces

theorem ReadsHead.of_same {kind : BodyKind} {head : List Char} (h : ReadsHead minify kind head ts)
    (hsame : SameTokens us ts) :
    ReadsHead minify kind head us := by
  obtain ⟨ws, hhead, htext⟩ := h
  obtain ⟨vs, hvs, hresemble⟩ := hhead.exists_resembling hsame
  refine ⟨vs, hvs, ?_⟩
  cases kind with
  | rules =>
      obtain ⟨list, hlist, htext⟩ := htext
      obtain ⟨list', hlist', hsame⟩ :=
        Selector.exists_parse_resembling hresemble.trimWhitespace hlist
      refine ⟨list', hlist', ?_⟩
      have htop (l : SelectorList) :
          resolveSelectors minify [] l = l.map (complexText minify ":scope".toList) := by
        simp [resolveSelectors, ← List.map_eq_flatMap]
      rw [← htext, htop, htop, hsame]
  | keyframes => exact (hresemble.trimWhitespace.valuesText_eq minify).trans htext
  | declarations => exact htext

theorem Declaration.ReadsTail.of_same {d : Declaration} (h : d.ReadsTail minify ts)
    (hsame : SameTokens us ts) :
    d.ReadsTail minify us := by
  obtain ⟨ws, value, hws, hsemicolon, hsplit, htext⟩ := h
  obtain ⟨vs, hvs, hresemble⟩ := hws.exists_resembling hsame
  obtain ⟨value', hsplit', hvalue⟩ :=
    exists_splitImportant_resembling hresemble hvs.isWhole hws.isWhole hsplit
  refine ⟨vs, value', hvs, ?_, hsplit', (hvalue.valuesText_eq minify).trans htext⟩
  exact hresemble.forall_of_bare (fun v => by rw [v.firstToken_bare]; rfl) hsemicolon

theorem ReadsPrelude.of_same {text : List Char} (h : ReadsPrelude minify text ts)
    (hsame : SameTokens us ts) :
    ReadsPrelude minify text us := by
  obtain ⟨ws, hws, hends, hstarts, htext⟩ := h
  obtain ⟨vs, hvs, hresemble⟩ := hws.exists_resembling hsame
  refine ⟨vs, hvs, ?_, ?_, (hresemble.trimWhitespace.valuesText_eq minify).trans htext⟩
  · exact hresemble.forall_of_bare (fun v => by rw [v.firstToken_bare]; rfl) hends
  · intro u hu
    cases ts with
    | nil =>
        obtain rfl := hsame.nil
        cases hu
    | cons t ts =>
        obtain ⟨u, us, rfl, hut, -⟩ := hsame.cons
        cases hu
        obtain ⟨hblank, hequals⟩ := hstarts t rfl
        exact ⟨(congrArg Token.isWhitespace hut).trans hblank,
          (Token.isDelim_of_unplaced hut _).trans hequals⟩

end Places

/-- The declaration is read back, but for the form of its value. -/
structure Declaration.Flat (minify : Bool) (d : Declaration) : Prop where
  name : IsNameText d.name.text
  tail : ∃ ts, Piece (d.tailText minify) ts (d.ReadsTail minify)

/-- The name is that of an at-rule which is no directive. -/
structure IsAtName (name : String) : Prop where
  isName : IsNameText name
  mixin : Text.foldCase name ≠ "mixin"
  inclusion : Text.foldCase name ≠ "include"

/-- An at-rule with a name and a prelude, up to its end. -/
def atText (name : String) (prelude : List Char) : List Char :=
  '@' :: escapeIdent name.toList ++ if prelude = [] then [] else ' ' :: prelude

/-- No declarations, which are written as nothing. -/
def Output.Flat.isVoid : Flat → Bool
  | .declarations [] _ => true
  | _ => false

/-- In a body of the kind every piece of the flat rules is read back by itself.  The short form leaves
out style rules that are empty, and the semicolon behind the last declaration of a body. -/
inductive FlatSheet (minify : Bool) : BodyKind → List Flat → Prop
  | nil {kind : BodyKind} : FlatSheet minify kind []
  | rule {kind : BodyKind} {head : List Char} {ts : List Token} {ds : List Declaration}
      {fs : List Flat} :
      head ≠ [] → (minify = true → kind = .rules → ds ≠ []) →
      Piece head ts (ReadsHead minify kind head) → (∀ d ∈ ds, d.Flat minify) →
      FlatSheet minify kind fs → FlatSheet minify kind (.rule head ds :: fs)
  | statement {kind : BodyKind} {name : String} {prelude : List Char} {ts : List Token}
      {fs : List Flat} :
      IsAtName name → Piece prelude ts (ReadsPrelude minify prelude) → FlatSheet minify kind fs →
      FlatSheet minify kind (.statement (atText name prelude) :: fs)
  | group {kind : BodyKind} {name : String} {prelude : List Char} {ts : List Token}
      {body fs : List Flat} :
      IsAtName name → Piece prelude ts (ReadsPrelude minify prelude) →
      FlatSheet minify (kind.inside name) body → FlatSheet minify kind fs →
      FlatSheet minify kind (.group (atText name prelude) body :: fs)
  | declarations {ds : List Declaration} {last : Bool} {fs : List Flat} :
      (minify = true → last = fs.all Flat.isVoid) → (∀ d ∈ ds, d.Flat minify) →
      FlatSheet minify .declarations fs →
      FlatSheet minify .declarations (.declarations ds last :: fs)

/-! ## Tokens -/

/-- The tokens of a prelude, behind the name of an at-rule. -/
inductive PreludeTokens (minify : Bool) : List Char → List Token → Prop
  | nil : PreludeTokens minify [] []
  | cons {text : List Char} {blank : Token} {ts : List Token} :
      text ≠ [] → blank.type = .whitespace → ReadsPrelude minify text ts →
      PreludeTokens minify text (blank :: ts)

/-- The tokens of a declaration, without a semicolon. -/
inductive DeclarationTokens (minify : Bool) (d : Declaration) : List Token → Prop
  | intro {name colon : Token} {blanks tail : List Token} :
      name.type = .ident → name.text = d.name.text → colon.type = .colon →
      (∀ t ∈ blanks, t.type = .whitespace) → d.ReadsTail minify tail →
      DeclarationTokens minify d (name :: colon :: (blanks ++ tail))

/-- The tokens of flat rules in a body of a kind, with whitespace between and behind them.  Behind the
last declaration there may be no token at all. -/
inductive SheetTokens (minify : Bool) : BodyKind → List Token → List Flat → Prop
  | nil {kind : BodyKind} : SheetTokens minify kind [] []
  | blank {kind : BodyKind} {t : Token} {ts : List Token} {fs : List Flat} :
      t.type = .whitespace → SheetTokens minify kind ts fs → SheetTokens minify kind (t :: ts) fs
  | rule {kind : BodyKind} {opener closer : Token} {front blanks inner ts : List Token}
      {head : List Char} {ds : List Declaration} {fs : List Flat} :
      (minify = true → kind = .rules → ds ≠ []) → ReadsHead minify kind head front →
      (∀ t ∈ blanks, t.type = .whitespace) → opener.type = .openBrace → closer.type = .closeBrace →
      SheetTokens minify .declarations inner [.declarations ds true] → SheetTokens minify kind ts fs →
      SheetTokens minify kind (front ++ (blanks ++ opener :: (inner ++ closer :: ts)))
        (.rule head ds :: fs)
  | statement {kind : BodyKind} {keyword semicolon : Token} {front ts : List Token}
      {prelude : List Char} {fs : List Flat} :
      keyword.type = .atKeyword → IsAtName keyword.text → PreludeTokens minify prelude front →
      semicolon.type = .semicolon → SheetTokens minify kind ts fs →
      SheetTokens minify kind (keyword :: (front ++ semicolon :: ts))
        (.statement (atText keyword.text prelude) :: fs)
  | group {kind : BodyKind} {keyword opener closer : Token} {front blanks inner ts : List Token}
      {prelude : List Char} {body fs : List Flat} :
      keyword.type = .atKeyword → IsAtName keyword.text → PreludeTokens minify prelude front →
      (∀ t ∈ blanks, t.type = .whitespace) → opener.type = .openBrace → closer.type = .closeBrace →
      SheetTokens minify (kind.inside keyword.text) inner body → SheetTokens minify kind ts fs →
      SheetTokens minify kind (keyword :: (front ++ (blanks ++ opener :: (inner ++ closer :: ts))))
        (.group (atText keyword.text prelude) body :: fs)
  | ended {ts : List Token} {last : Bool} {fs : List Flat} :
      SheetTokens minify .declarations ts fs →
      SheetTokens minify .declarations ts (.declarations [] last :: fs)
  | declaration {front ts : List Token} {semicolon : Token} {d : Declaration}
      {ds : List Declaration} {last : Bool} {fs : List Flat} :
      (minify = true → last = fs.all Flat.isVoid) → DeclarationTokens minify d front →
      semicolon.type = .semicolon →
      SheetTokens minify .declarations ts (.declarations ds last :: fs) →
      SheetTokens minify .declarations (front ++ semicolon :: ts) (.declarations (d :: ds) last :: fs)
  | final {front : List Token} {d : Declaration} {ds : List Declaration} {last : Bool}
      {fs : List Flat} :
      (minify = true → last = fs.all Flat.isVoid) → DeclarationTokens minify d front →
      SheetTokens minify .declarations [] (.declarations ds last :: fs) →
      SheetTokens minify .declarations front (.declarations (d :: ds) last :: fs)

/-! ## From the text to the tokens -/

section Texts

variable {p : Position} {P : List Token → Prop} {style : Style} {rest : List Char}

/-- A text behind which the rest goes on with one of its tokens lists, wherever it stands. -/
def Continues (rest : List Char) (P : List Token → Prop) : Prop :=
  ∀ q, ∃ us, Spaced q rest us ∧ P us

theorem Continues.mono {Q : List Token → Prop} (h : Continues rest P) (hpq : ∀ us, P us → Q us) :
    Continues rest Q := by
  intro q
  obtain ⟨us, hus, hP⟩ := h q
  exact ⟨us, hus, hpq us hP⟩

theorem Continues.punctuation {c : Char} {type : TokenType} (hc : (c, type) ∈ Output.punctuation)
    (h : Continues rest P) :
    Continues (c :: rest) fun us => ∃ t us', us = t :: us' ∧ t.type = type ∧ P us' := by
  intro q
  obtain ⟨us, hus, hP⟩ := h (q.after c)
  exact ⟨_, hus.punctuation hc, _, us, rfl, rfl, hP⟩

theorem Continues.blanks {run : List Char} (hne : run ≠ []) (hrun : ∀ c ∈ run, isBlank c = true)
    (hrest : rest.head?.any isBlank = false) (h : Continues rest P) :
    Continues (run ++ rest) fun us => ∃ t us', us = t :: us' ∧ t.type = .whitespace ∧ P us' := by
  intro q
  obtain ⟨us, hus, hP⟩ := h (q.afterAll run)
  exact ⟨_, .blanks hne hrun hrest hus, _, us, rfl, rfl, hP⟩

theorem IsNameText.readable {name : String} (h : IsNameText name) :
    Token.Readable ⟨.ident, name, p, .none⟩ := by
  have hne : name.toList ≠ [] := by simpa using h.2
  have hread : Token.Readable ⟨.ident, String.ofList name.toList, p, .none⟩ := .ident h.1 hne
  rwa [String.ofList_toList] at hread

theorem Continues.name {name : String} (hname : IsNameText name) (hrest : leavesIdent rest = true)
    (h : Continues rest P) :
    Continues (escapeIdent name.toList ++ rest)
      fun us => ∃ t us', us = t :: us' ∧ t.type = .ident ∧ t.text = name ∧ P us' := by
  intro q
  obtain ⟨us, hus, hP⟩ := h (q.afterAll (escapeIdent name.toList))
  refine ⟨_, .token (hname.readable (p := q)) rfl ?_ hus, _, us, rfl, rfl, rfl, hP⟩
  exact stopsBefore_of_leavesIdent hrest _ _

theorem Continues.atKeyword {name : String} (hname : IsNameText name)
    (hrest : nameGoesOn rest = false) (h : Continues rest P) :
    Continues ('@' :: escapeIdent name.toList ++ rest)
      fun us => ∃ t us', us = t :: us' ∧ t.type = .atKeyword ∧ t.text = name ∧ P us' := by
  intro q
  have hne : name.toList ≠ [] := by simpa using hname.2
  have hread : Token.Readable ⟨.atKeyword, String.ofList name.toList, q, .none⟩ :=
    .atKeyword hname.1 hne
  rw [String.ofList_toList] at hread
  have hstop : Token.stopsBefore ⟨.atKeyword, name, q, .none⟩ rest = true := by
    simp [Token.stopsBefore, hrest]
  obtain ⟨us, hus, hP⟩ := h (q.afterAll ('@' :: escapeIdent name.toList))
  exact ⟨_, .token hread rfl hstop hus, _, us, rfl, rfl, rfl, hP⟩

/-- A piece in front of a gap. -/
theorem Continues.piece {text : List Char} {ts : List Token} {Reads : List Token → Prop}
    (hpiece : Piece text ts Reads) (hplaces : ∀ us, SameTokens us ts → Reads us)
    (hgap : StartsGap rest) (h : Continues rest P) :
    Continues (text ++ rest) fun us => ∃ ts' us', us = ts' ++ us' ∧ Reads ts' ∧ P us' := by
  intro q
  obtain ⟨ts', us, hsame, hspaced, hP⟩ :=
    Joined.spaced (p := q) hgap hpiece.readable hpiece.joined hpiece.ends h
  rw [hpiece.text] at hspaced
  exact ⟨_, hspaced, ts', us, rfl, hplaces ts' hsame, hP⟩

/-- A piece starts with no blank. -/
theorem Piece.head_not_blank {text : List Char} {ts : List Token} {Reads : List Token → Prop}
    (h : Piece text ts Reads) {cs : List Char} (hcs : text = [] → cs.head?.any isBlank = false) :
    (text ++ cs).head?.any isBlank = false := by
  rw [← h.text] at hcs ⊢
  cases ts with
  | nil => exact hcs rfl
  | cons t ts =>
      have hvisible : t.isWhitespace = false := by simpa using h.starts
      rw [textOf_cons, List.append_assoc]
      exact tokenText_head_not_blank (h.readable t List.mem_cons_self) hvisible _

theorem Continues.space (hrest : rest.head?.any isBlank = false) (h : Continues rest P) :
    Continues (' ' :: rest) fun us => ∃ t us', us = t :: us' ∧ t.type = .whitespace ∧ P us' := by
  have hrun : ∀ c ∈ [' '], isBlank c = true := by simp [isBlank]
  exact h.blanks (List.cons_ne_nil ' ' []) hrun hrest

theorem semicolon_mem :
    (';', TokenType.semicolon) ∈ Output.punctuation := by
  decide

theorem colon_mem :
    (':', TokenType.colon) ∈ Output.punctuation := by
  decide

theorem openBrace_mem :
    ('\x7b', TokenType.openBrace) ∈ Output.punctuation := by
  decide

theorem closeBrace_mem :
    ('\x7d', TokenType.closeBrace) ∈ Output.punctuation := by
  decide

/-- Blanks, or none. -/
theorem Continues.spaces {run : List Char} (hrun : ∀ c ∈ run, isBlank c = true)
    (hrest : rest.head?.any isBlank = false) (h : Continues rest P) :
    Continues (run ++ rest)
      fun us => ∃ ts us', us = ts ++ us' ∧ (∀ t ∈ ts, t.type = .whitespace) ∧ P us' := by
  by_cases hne : run = []
  · subst hne
    exact h.mono fun us hP => ⟨[], us, rfl, List.forall_mem_nil _, hP⟩
  · refine (h.blanks hne hrun hrest).mono ?_
    rintro _ ⟨t, us, rfl, ht, hP⟩
    exact ⟨[t], us, rfl, by simpa using ht, hP⟩

theorem nameGoesOn_of_startsGap (h : StartsGap rest) :
    nameGoesOn rest = false := by
  obtain ⟨x, cs, rfl, hx, -⟩ := h
  exact nameGoesOn_gap hx [] cs

/-- The name and the prelude of an at-rule in front of a gap. -/
theorem Continues.atText {minify : Bool} {name : String} {prelude : List Char} {ts : List Token}
    (hname : IsAtName name) (hpiece : Piece prelude ts (ReadsPrelude minify prelude))
    (hgap : StartsGap rest) (h : Continues rest P) :
    Continues (Cascade.atText name prelude ++ rest) fun us => ∃ keyword front us',
      us = keyword :: (front ++ us') ∧ keyword.type = .atKeyword ∧ keyword.text = name ∧
        PreludeTokens minify prelude front ∧ P us' := by
  have hends := nameGoesOn_of_startsGap hgap
  unfold Cascade.atText
  by_cases hprelude : prelude = []
  · rw [if_pos hprelude, List.append_nil]
    refine (h.atKeyword hname.isName hends).mono ?_
    rintro _ ⟨keyword, us, rfl, hkeyword, htext, hP⟩
    exact ⟨keyword, [], us, rfl, hkeyword, htext, hprelude ▸ .nil, hP⟩
  · have hvisible : (prelude ++ rest).head?.any isBlank = false :=
      hpiece.head_not_blank fun h => (hprelude h).elim
    have hfront := h.piece hpiece (fun _ => hpiece.reads.of_same) hgap
    have hspace := hfront.space hvisible
    rw [if_neg hprelude, List.append_assoc]
    refine (hspace.atKeyword hname.isName rfl).mono ?_
    rintro _ ⟨keyword, _, rfl, hkeyword, htext, blank, _, rfl, hblank, front, us, rfl, hreads, hP⟩
    exact ⟨keyword, blank :: front, us, rfl, hkeyword, htext, .cons hprelude hblank hreads, hP⟩

theorem declarationText_eq (minify : Bool) (d : Declaration) :
    declarationText minify d = escapeIdent d.name.text.toList ++
      ':' :: ((if minify then [] else [' ']) ++ d.tailText minify) := by
  rw [declarationText, Declaration.tailText]
  cases minify <;> cases d.important <;> simp

theorem isBlank_of_mem_indentText {c : Char} {level : Nat} (h : c ∈ indentText style level) :
    isBlank c = true := by
  unfold indentText at h
  split at h
  · cases h
  · rw [List.eq_of_mem_replicate h]
    rfl

/-- What is behind the text of a body of a kind: blanks, of which the short form has none, and what
closes the body. -/
structure Margin (style : Style) (kind : BodyKind) (blanks rest : List Char) : Prop where
  blank : ∀ c ∈ blanks, isBlank c = true
  short : style.minify = true → blanks = []
  visible : rest.head?.any isBlank = false
  closes : kind = .declarations → ∃ cs, rest = '\x7d' :: cs

/-- Behind blanks and in front of a margin, the text is read as tokens with the property. -/
def Fills (style : Style) (kind : BodyKind) (text : List Char) (Q : List Token → Prop) : Prop :=
  ∀ (P : List Token → Prop) (lead blanks rest : List Char), (∀ c ∈ lead, isBlank c = true) →
    Margin style kind blanks rest → Continues rest P →
    Continues (lead ++ (text ++ (blanks ++ rest)))
      fun us => ∃ inner us', us = inner ++ us' ∧ Q inner ∧ P us'

theorem Fills.nil {kind : BodyKind} {Q : List Token → Prop} (hnil : Q [])
    (hblank : ∀ {t : Token} {ts : List Token}, t.type = .whitespace → Q ts → Q (t :: ts)) :
    Fills style kind [] Q := by
  intro P lead blanks rest hlead hmargin h
  have hrun := h.spaces (List.forall_mem_append.mpr ⟨hlead, hmargin.blank⟩) hmargin.visible
  rw [List.append_assoc] at hrun
  refine hrun.mono ?_
  rintro _ ⟨ts, us, rfl, hts, hP⟩
  refine ⟨ts, us, rfl, ?_, hP⟩
  clear hrun
  induction ts with
  | nil => exact hnil
  | cons t ts ih =>
      obtain ⟨ht, hts⟩ := List.forall_mem_cons.mp hts
      exact hblank ht (ih hts)

theorem Fills.mono {kind : BodyKind} {Q Q' : List Token → Prop} {text : List Char}
    (h : Fills style kind text Q) (hQ : ∀ ts, Q ts → Q' ts) :
    Fills style kind text Q' := by
  intro P lead blanks rest hlead hmargin hbehind
  refine (h P lead blanks rest hlead hmargin hbehind).mono ?_
  rintro _ ⟨inner, us, rfl, hinner, hP⟩
  exact ⟨inner, us, rfl, hQ inner hinner, hP⟩

theorem Fills.blank_append {kind : BodyKind} {Q : List Token → Prop} {line text : List Char}
    (h : Fills style kind text Q) (hline : ∀ c ∈ line, isBlank c = true) :
    Fills style kind (line ++ text) Q := by
  intro P lead blanks rest hlead hmargin hbehind
  have hrun := h P (lead ++ line) blanks rest (List.forall_mem_append.mpr ⟨hlead, hline⟩) hmargin
    hbehind
  rw [List.append_assoc] at hrun
  rwa [List.append_assoc]

section Sheets

variable {minify : Bool} {kind : BodyKind} {fs : List Flat}

theorem SheetTokens.blanks {bs ts : List Token} (hbs : ∀ t ∈ bs, t.type = .whitespace)
    (h : SheetTokens minify kind ts fs) :
    SheetTokens minify kind (bs ++ ts) fs := by
  induction bs with
  | nil => exact h
  | cons b bs ih =>
      obtain ⟨hb, hbs⟩ := List.forall_mem_cons.mp hbs
      exact .blank hb (ih hbs)

/-- Rules that are written as nothing have no tokens. -/
theorem SheetTokens.of_void (h : ∀ f ∈ fs, f.isVoid = true) :
    SheetTokens minify .declarations [] fs := by
  induction fs with
  | nil => exact .nil
  | cons f fs ih =>
      obtain ⟨hf, hfs⟩ := List.forall_mem_cons.mp h
      unfold Flat.isVoid at hf
      split at hf
      · exact .ended (ih hfs)
      · cases hf

end Sheets

theorem isBlank_of_mem_lineEnd {c : Char} (h : c ∈ lineEnd style) :
    isBlank c = true := by
  unfold lineEnd at h
  split at h
  · cases h
  · rw [List.mem_singleton.mp h]
    rfl

theorem isBlank_lineEnd {run : List Char} (h : ∀ c ∈ run, isBlank c = true) :
    ∀ c ∈ lineEnd style ++ run, isBlank c = true :=
  List.forall_mem_append.mpr ⟨fun _ hc => isBlank_of_mem_lineEnd hc, h⟩

theorem isBlank_indented {lead : List Char} (h : ∀ c ∈ lead, isBlank c = true) (style : Style)
    (level : Nat) :
    ∀ c ∈ lead ++ indentText style level, isBlank c = true :=
  List.forall_mem_append.mpr ⟨h, fun _ hc => isBlank_of_mem_indentText hc⟩

theorem startsGap_semicolon (cs : List Char) :
    StartsGap (';' :: cs) :=
  ⟨';', cs, rfl, by decide, fun h => absurd h (by decide)⟩

theorem startsGap_closeBrace (cs : List Char) :
    StartsGap ('\x7d' :: cs) :=
  ⟨'\x7d', cs, rfl, by decide, fun h => absurd h (by decide)⟩

/-- What is between the head of a rule and its body starts with a gap. -/
theorem startsGap_open (style : Style) (cs : List Char) :
    StartsGap ((if style.minify then ['\x7b'] else [' ', '\x7b', '\n']) ++ cs) := by
  split
  · exact ⟨'\x7b', cs, rfl, by decide, fun h => absurd h (by decide)⟩
  · exact ⟨' ', '\x7b' :: '\n' :: cs, rfl, by decide, fun _ => rfl⟩

theorem Declaration.Flat.head_not_blank {minify : Bool} {d : Declaration} (hd : d.Flat minify)
    (cs : List Char) :
    (declarationText minify d ++ cs).head?.any isBlank = false := by
  have hne : d.name.text.toList ≠ [] := by simpa using hd.name.2
  rw [declarationText_eq, List.append_assoc]
  exact not_blank_of_startsName (startsName_escapeIdent hd.name.1 hne _)

/-- The tokens of a declaration in front of a gap. -/
theorem Continues.declaration {minify : Bool} {d : Declaration} (hd : d.Flat minify)
    (hgap : StartsGap rest) (hrest : rest.head?.any isBlank = false) (h : Continues rest P) :
    Continues (declarationText minify d ++ rest)
      fun us => ∃ front us', us = front ++ us' ∧ DeclarationTokens minify d front ∧ P us' := by
  obtain ⟨ts, hpiece⟩ := hd.tail
  have hblank : ∀ c ∈ if minify then [] else [' '], isBlank c = true := by
    cases minify <;> simp [isBlank]
  have htail := (h.piece hpiece (fun _ => hpiece.reads.of_same) hgap).spaces hblank
    (hpiece.head_not_blank fun _ => hrest)
  have hname := (htail.punctuation colon_mem).name hd.name rfl
  rw [declarationText_eq, List.append_assoc, List.cons_append, List.append_assoc]
  refine hname.mono ?_
  rintro _ ⟨name, _, rfl, hident, hsame, colon, _, rfl, hcolon, blanks, _, rfl, hblanks, tail, us, rfl,
    hreads, hP⟩
  exact ⟨name :: colon :: (blanks ++ tail), us, by simp, .intro hident hsame hcolon hblanks hreads, hP⟩

/-- The last declaration of a body in the short form: nothing stands between it and the brace. -/
theorem fills_lastDeclaration (hminify : style.minify = true) (level : Nat) {d : Declaration}
    (hd : d.Flat style.minify) {fs : List Flat} (hvoid : fs.all Flat.isVoid = true) :
    Fills style .declarations (declarationsText style level true [d])
      (SheetTokens style.minify .declarations · (.declarations [d] true :: fs)) := by
  intro P lead blanks rest hlead hmargin h
  obtain ⟨cs, rfl⟩ := hmargin.closes rfl
  have hfront := (h.declaration hd (startsGap_closeBrace cs) rfl).spaces
    (isBlank_indented hlead style level) (hd.head_not_blank _)
  have hsplit : lead ++ (declarationsText style level true [d] ++ (blanks ++ '\x7d' :: cs)) =
      lead ++ indentText style level ++ (declarationText style.minify d ++ '\x7d' :: cs) := by
    simp [declarationsText, hminify, lineEnd, hmargin.short hminify]
  rw [hsplit]
  refine hfront.mono ?_
  rintro _ ⟨bs, _, rfl, hbs, front, us, rfl, hdeclared, hP⟩
  refine ⟨bs ++ front, us, by simp, .blanks hbs (.final (fun _ => hvoid.symm) hdeclared ?_), hP⟩
  exact .ended (.of_void (List.all_eq_true.mp hvoid))

/-- The tokens of declarations in front of others. -/
theorem fills_declarations (level : Nat) {last : Bool} {ds : List Declaration}
    (hds : ∀ d ∈ ds, d.Flat style.minify) {text : List Char} {fs : List Flat}
    (hlast : style.minify = true → last = fs.all Flat.isVoid)
    (hvoid : style.minify = true → fs.all Flat.isVoid = true → text = [])
    (htext : Fills style .declarations text (SheetTokens style.minify .declarations · fs)) :
    Fills style .declarations (declarationsText style level last ds ++ text)
      (SheetTokens style.minify .declarations · (.declarations ds last :: fs)) := by
  induction ds with
  | nil => exact htext.mono fun _ => .ended
  | cons d ds ih =>
      obtain ⟨hd, hds⟩ := List.forall_mem_cons.mp hds
      by_cases hfinal : (style.minify && last && ds.isEmpty) = true
      · simp only [Bool.and_eq_true, List.isEmpty_iff] at hfinal
        obtain ⟨⟨hminify, rfl⟩, rfl⟩ := hfinal
        have hempty := (hlast hminify).symm
        rw [hvoid hminify hempty, List.append_nil]
        exact fills_lastDeclaration hminify level hd hempty
      · intro P lead blanks rest hlead hmargin h
        have hbehind := ih hds P (lineEnd style) blanks rest (fun _ hc => isBlank_of_mem_lineEnd hc)
          hmargin h
        have hfront := ((hbehind.punctuation semicolon_mem).declaration hd
          (startsGap_semicolon _) rfl).spaces (isBlank_indented hlead style level) (hd.head_not_blank _)
        have hsplit : lead ++ (declarationsText style level last (d :: ds) ++ text ++ (blanks ++ rest)) =
            lead ++ indentText style level ++ (declarationText style.minify d ++ ';' ::
              (lineEnd style ++ (declarationsText style level last ds ++ text ++ (blanks ++ rest)))) := by
          rw [declarationsText, if_neg hfinal]
          simp
        rw [hsplit]
        refine hfront.mono ?_
        rintro _ ⟨bs, _, rfl, hbs, front, _, rfl, hdeclared, semicolon, _, rfl, hsemicolon, inner, us,
          rfl, hinner, hP⟩
        exact ⟨bs ++ (front ++ semicolon :: inner), us, by simp,
          .blanks hbs (.declaration hlast hdeclared hsemicolon hinner), hP⟩

/-- Flat rules in front of others, with a gap between two of them. -/
def spreadText (style : Style) (gap : List Char) (level : Nat) (fs : List Flat) : List Char :=
  gap.intercalate (fs.map (flatText style level))

theorem flatsText_eq (level : Nat) (fs : List Flat) :
    flatsText style level fs = spreadText style [] level fs := by
  induction fs with
  | nil => rw [flatsText]; rfl
  | cons f fs ih =>
      rw [flatsText, ih]
      cases fs <;> simp [spreadText, List.intercalate]

theorem exists_spreadText_cons (style : Style) (gap : List Char) (level : Nat) (f : Flat)
    (fs : List Flat) :
    ∃ lead, (∀ c ∈ lead, c ∈ gap) ∧
      spreadText style gap level (f :: fs) =
        flatText style level f ++ (lead ++ spreadText style gap level fs) := by
  cases fs with
  | nil => exact ⟨[], List.forall_mem_nil _, by simp [spreadText, List.intercalate]⟩
  | cons g fs => exact ⟨gap, fun _ h => h, by simp [spreadText, List.intercalate]⟩

theorem flatText_of_void {f : Flat} (h : f.isVoid = true) (level : Nat) :
    flatText style level f = [] := by
  unfold Flat.isVoid at h
  split at h
  · rw [flatText]
    rfl
  · cases h

theorem spreadText_of_void (level : Nat) {fs : List Flat} (h : fs.all Flat.isVoid = true) :
    spreadText style [] level fs = [] := by
  rw [← flatsText_eq]
  induction fs with
  | nil => rw [flatsText]
  | cons f fs ih =>
      obtain ⟨hf, hfs⟩ := Bool.and_eq_true_iff.mp h
      rw [flatsText, flatText_of_void hf, ih hfs]
      rfl

/-- The tokens of a body in braces. -/
theorem Continues.body {kind : BodyKind} {Q : List Token → Prop} {text : List Char}
    (h : Continues rest P) (hbody : Fills style kind text Q) (level : Nat) :
    Continues ((if style.minify then ['\x7b'] else [' ', '\x7b', '\n']) ++
      (text ++ (indentText style level ++ '\x7d' :: rest)))
      fun us => ∃ blanks opener inner closer us',
        us = blanks ++ opener :: (inner ++ closer :: us') ∧ (∀ t ∈ blanks, t.type = .whitespace) ∧
          opener.type = .openBrace ∧ closer.type = .closeBrace ∧ Q inner ∧ P us' := by
  have hmargin : Margin style kind (indentText style level) ('\x7d' :: rest) :=
    { blank := fun _ hc => isBlank_of_mem_indentText hc
      short := fun hminify => by rw [indentText, if_pos hminify]
      visible := rfl
      closes := fun _ => ⟨rest, rfl⟩ }
  have hinner := hbody _ (lineEnd style) _ _ (fun _ hc => isBlank_of_mem_lineEnd hc) hmargin
    (h.punctuation closeBrace_mem)
  have hblank : ∀ c ∈ if style.minify then [] else [' '], isBlank c = true := by
    cases style.minify <;> simp [isBlank]
  have hsplit : (if style.minify then ['\x7b'] else [' ', '\x7b', '\n']) ++
      (text ++ (indentText style level ++ '\x7d' :: rest)) =
        (if style.minify then [] else [' ']) ++
          '\x7b' :: (lineEnd style ++ (text ++ (indentText style level ++ '\x7d' :: rest))) := by
    rw [lineEnd]
    cases style.minify <;> rfl
  rw [hsplit]
  refine ((hinner.punctuation openBrace_mem).spaces hblank rfl).mono ?_
  rintro _ ⟨blanks, _, rfl, hblanks, opener, _, rfl, hopener, inner, _, rfl, hQ, closer, us, rfl,
    hcloser, hP⟩
  exact ⟨blanks, opener, inner, closer, us, rfl, hblanks, hopener, hcloser, hQ, hP⟩

theorem atText_head_not_blank (name : String) (prelude cs : List Char) :
    (Cascade.atText name prelude ++ cs).head?.any isBlank = false := by
  rfl

/-- The tokens of a flat stylesheet, or of the body of an at-rule. -/
theorem fills_flats {kind : BodyKind} {fs : List Flat} (hfs : FlatSheet style.minify kind fs) :
    ∀ (gap : List Char) (level : Nat), (∀ c ∈ gap, isBlank c = true) →
      (style.minify = true → gap = []) →
      Fills style kind (spreadText style gap level fs) (SheetTokens style.minify kind · fs) := by
  induction hfs with
  | nil => exact fun _ _ _ _ => .nil .nil .blank
  | @rule kind head ts ds fs hne hfull hpiece hds _ ih =>
      intro gap level hgap hshort P lead blanks rest hlead hmargin h
      obtain ⟨line, hline, hsplit⟩ := exists_spreadText_cons style gap level (.rule head ds) fs
      have hbehind := ih gap level hgap hshort P (lineEnd style ++ line) blanks rest
        (isBlank_lineEnd fun c hc => hgap c (hline c hc)) hmargin h
      have hbody := hbehind.body
        (fills_declarations (level + 1) hds (fun _ => rfl) (fun _ _ => rfl) (.nil .nil .blank)) level
      have hhead := hbody.piece hpiece (fun _ => hpiece.reads.of_same) (startsGap_open style _)
      have hall := hhead.spaces (isBlank_indented hlead style level)
        (hpiece.head_not_blank fun h => (hne h).elim)
      have htext : lead ++ (spreadText style gap level (.rule head ds :: fs) ++ (blanks ++ rest)) =
          lead ++ indentText style level ++ (head ++
            ((if style.minify then ['\x7b'] else [' ', '\x7b', '\n']) ++
              (declarationsText style (level + 1) true ds ++ [] ++ (indentText style level ++ '\x7d' ::
                (lineEnd style ++ line ++ (spreadText style gap level fs ++ (blanks ++ rest))))))) := by
        rw [hsplit]
        simp [flatText, openText, closeText]
      rw [htext]
      refine hall.mono ?_
      rintro _ ⟨bs, _, rfl, hbs, front, _, rfl, hreads, spaces, opener, inner, closer, _, rfl, hspaces,
        hopener, hcloser, hinner, others, us, rfl, hothers, hP⟩
      refine ⟨bs ++ (front ++ (spaces ++ opener :: (inner ++ closer :: others))), us, by simp, ?_, hP⟩
      exact .blanks hbs (.rule hfull hreads hspaces hopener hcloser hinner hothers)
  | @statement kind name prelude ts fs hname hpiece _ ih =>
      intro gap level hgap hshort P lead blanks rest hlead hmargin h
      obtain ⟨line, hline, hsplit⟩ :=
        exists_spreadText_cons style gap level (.statement (atText name prelude)) fs
      have hbehind := ih gap level hgap hshort P (lineEnd style ++ line) blanks rest
        (isBlank_lineEnd fun c hc => hgap c (hline c hc)) hmargin h
      have hrule := (hbehind.punctuation semicolon_mem).atText hname hpiece (startsGap_semicolon _)
      have hall := hrule.spaces (isBlank_indented hlead style level) (atText_head_not_blank _ _ _)
      have htext : lead ++ (spreadText style gap level (.statement (atText name prelude) :: fs) ++
          (blanks ++ rest)) =
            lead ++ indentText style level ++ (atText name prelude ++ ';' ::
              (lineEnd style ++ line ++ (spreadText style gap level fs ++ (blanks ++ rest)))) := by
        rw [hsplit]
        simp [flatText]
      rw [htext]
      refine hall.mono ?_
      rintro _ ⟨bs, _, rfl, hbs, keyword, front, _, rfl, hkeyword, rfl, hfront, semicolon, _, rfl,
        hsemicolon, others, us, rfl, hothers, hP⟩
      refine ⟨bs ++ keyword :: (front ++ semicolon :: others), us, by simp, ?_, hP⟩
      exact .blanks hbs (.statement hkeyword hname hfront hsemicolon hothers)
  | @group kind name prelude ts body fs hname hpiece _ _ ihbody ih =>
      intro gap level hgap hshort P lead blanks rest hlead hmargin h
      obtain ⟨line, hline, hsplit⟩ :=
        exists_spreadText_cons style gap level (.group (atText name prelude) body) fs
      have hbehind := ih gap level hgap hshort P (lineEnd style ++ line) blanks rest
        (isBlank_lineEnd fun c hc => hgap c (hline c hc)) hmargin h
      have hbody := hbehind.body
        (ihbody [] (level + 1) (List.forall_mem_nil _) fun _ => rfl) level
      have hrule := hbody.atText hname hpiece (startsGap_open style _)
      have hall := hrule.spaces (isBlank_indented hlead style level) (atText_head_not_blank _ _ _)
      have htext : lead ++ (spreadText style gap level (.group (atText name prelude) body :: fs) ++
          (blanks ++ rest)) =
            lead ++ indentText style level ++ (atText name prelude ++
              ((if style.minify then ['\x7b'] else [' ', '\x7b', '\n']) ++
                (spreadText style [] (level + 1) body ++ (indentText style level ++ '\x7d' ::
                  (lineEnd style ++ line ++ (spreadText style gap level fs ++ (blanks ++ rest))))))) := by
        rw [hsplit, ← flatsText_eq]
        simp [flatText, openText, closeText]
      rw [htext]
      refine hall.mono ?_
      rintro _ ⟨bs, _, rfl, hbs, keyword, front, _, rfl, hkeyword, rfl, hfront, spaces, opener, inner,
        closer, _, rfl, hspaces, hopener, hcloser, hinner, others, us, rfl, hothers, hP⟩
      refine ⟨bs ++ keyword :: (front ++ (spaces ++ opener :: (inner ++ closer :: others))), us,
        by simp, ?_, hP⟩
      exact .blanks hbs
        (.group hkeyword hname hfront hspaces hopener hcloser hinner hothers)
  | @declarations ds last fs hlast hds _ ih =>
      intro gap level hgap hshort
      obtain ⟨line, hline, hsplit⟩ := exists_spreadText_cons style gap level (.declarations ds last) fs
      have hbehind := (ih gap level hgap hshort).blank_append fun c hc => hgap c (hline c hc)
      rw [hsplit, flatText]
      refine fills_declarations level hds hlast (fun hminify hvoid => ?_) hbehind
      obtain rfl := hshort hminify
      rw [spreadText_of_void level hvoid, List.append_nil]
      exact List.eq_nil_iff_forall_not_mem.mpr fun c hc => List.not_mem_nil (hline c hc)

end Texts
end Cascade
