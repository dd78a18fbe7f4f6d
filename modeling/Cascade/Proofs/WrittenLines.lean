import Cascade.Markdown.Reformat
import Cascade.Proofs.ParentReferences
import Cascade.Proofs.SourceTokens

/-!
# The lines of written stylesheets

A stylesheet that is not written in the short form, and has no comment at the top, has
lines of three kinds: empty ones, those that open or close a body, and those that end with
a semicolon.

**Method.**  A text that cannot break a line is `OneLine`.  Whatever stands in a source, its
tokens are written on one line, since line ends in names, strings and addresses are escaped
(`oneLine_of_mem_tokenize`); so are values, selectors and all that flat rules are made of
(`Flat.OneLine`).  `InLines` says that a text consists of lines of the three kinds, and is
kept when texts are put together.

**Results.**
* `Sheet.inLines_of_formatRules`: the lines of a written stylesheet.
-/

namespace Cascade

open Markdown (linesText)
open Output Lexer

/-- The text has no line end. -/
def OneLine (s : List Char) : Prop :=
  '\n' ∉ s

instance (s : List Char) : Decidable (OneLine s) :=
  inferInstanceAs (Decidable ('\n' ∉ s))

@[simp] theorem oneLine_nil :
    OneLine [] :=
  List.not_mem_nil

@[simp] theorem oneLine_cons {c : Char} {s : List Char} :
    OneLine (c :: s) ↔ c ≠ '\n' ∧ OneLine s := by
  simp [OneLine, eq_comm]

@[simp] theorem oneLine_append {s t : List Char} :
    OneLine (s ++ t) ↔ OneLine s ∧ OneLine t := by
  simp [OneLine]

theorem oneLine_flatMap {α : Type} {f : α → List Char} {as : List α} (h : ∀ a ∈ as, OneLine (f a)) :
    OneLine (as.flatMap f) := by
  intro hline
  obtain ⟨a, ha, hmem⟩ := List.mem_flatMap.mp hline
  exact h a ha hmem

/-- What holds of parts and separators, and is kept when texts are put together, holds of the whole. -/
theorem intercalate_of_append {p : List Char → Prop} (hnil : p [])
    (happend : ∀ {s t : List Char}, p s → p t → p (s ++ t)) {sep : List Char} (hsep : p sep)
    {parts : List (List Char)} (h : ∀ part ∈ parts, p part) :
    p (sep.intercalate parts) := by
  induction parts with
  | nil => exact hnil
  | cons part rest ih =>
      obtain ⟨hpart, hrest⟩ := List.forall_mem_cons.mp h
      cases rest with
      | nil => rwa [List.intercalate_singleton]
      | cons next more =>
          rw [List.intercalate_cons_cons]
          exact happend (happend hpart hsep) (ih hrest)

theorem oneLine_of_forall {p : Char → Bool} (hp : p '\n' = false) {s : List Char}
    (h : ∀ c ∈ s, p c = true) :
    OneLine s := by
  intro hline
  rw [h _ hline] at hp
  cases hp

theorem oneLine_getD {α : Type} {f : α → List Char} {o : Option α} (h : ∀ a ∈ o, OneLine (f a)) :
    OneLine ((o.map f).getD []) := by
  cases o with
  | none => exact oneLine_nil
  | some a => exact h a rfl

/-! ## Escapes -/

namespace Output

theorem oneLine_hexEscape {c : Char} (hzero : c.toNat ≠ 0) (hascii : c.toNat < 128) :
    OneLine (hexEscape c) := by
  have hdigits := List.all_eq_true.mp (toDigits_ascii c.toNat hascii hzero).2.2.1
  simp [hexEscape, oneLine_of_forall (by decide) hdigits]

theorem oneLine_hexEscape_control {c : Char} (h : isControl c = true) :
    OneLine (hexEscape c) := by
  rw [isControl_iff] at h
  exact oneLine_hexEscape (by omega) (by omega)

theorem oneLine_escapeNameChar (c : Char) :
    OneLine (escapeNameChar c) := by
  unfold escapeNameChar
  split
  · decide
  · split
    · next h => exact oneLine_hexEscape_control h
    · next h =>
        have hline := ne_newline_of_not_control (by simpa using h)
        split <;> simp [hline]

theorem oneLine_escapeName (s : List Char) :
    OneLine (escapeName s) :=
  oneLine_flatMap fun c _ => oneLine_escapeNameChar c

theorem oneLine_escapeStartChar (c : Char) :
    OneLine (escapeStartChar c) := by
  unfold escapeStartChar
  split
  · next h =>
      have hcode := isDigit_iff.mp h
      exact oneLine_hexEscape (by omega) (by omega)
  · exact oneLine_escapeNameChar c

@[simp] theorem oneLine_escapeIdent (s : List Char) :
    OneLine (escapeIdent s) := by
  fun_cases escapeIdent s <;> simp [oneLine_escapeStartChar, oneLine_escapeName]

theorem oneLine_quoteString (q : Quote) (s : List Char) :
    OneLine (quoteString q s) := by
  have hmark : q.char ≠ '\n' := by cases q <;> decide
  have hinside : OneLine (s.flatMap (quoteStringChar q.char)) := by
    refine oneLine_flatMap fun c _ => ?_
    unfold quoteStringChar
    split
    · decide
    · split
      · next h => exact oneLine_hexEscape_control h
      · next h =>
          have hline := ne_newline_of_not_control (by simpa using h)
          split <;> simp [hline]
  simp [quoteString, hmark, hinside]

theorem oneLine_escapeUrl (s : List Char) :
    OneLine (escapeUrl s) := by
  refine oneLine_flatMap fun c _ => ?_
  unfold escapeUrlChar
  split
  · decide
  · split
    · next h =>
        rcases h with h | rfl | rfl
        · exact oneLine_hexEscape_control h
        · decide
        · decide
    · next h =>
        have hline := ne_newline_of_not_control (by simpa using (not_or.mp h).1)
        split <;> simp [hline]

end Output

/-! ## Tokens and values -/

/-- The token is written on one line. -/
def Token.OneLine (t : Token) : Prop :=
  Cascade.OneLine (tokenText false t)

theorem aliasClosed_oneLine :
    AliasClosed Token.OneLine := by
  constructor <;> intro t _
  · exact oneLine_cons.mpr ⟨by decide, oneLine_escapeIdent _⟩
  · exact oneLine_cons.mpr ⟨by decide, oneLine_nil⟩

/-- What opens a block is a bracket, since there are tokens that are not written on one line. -/
theorem Token.OpensBlock.oneLine {t : Token} (h : t.OpensBlock Token.OneLine) :
    Cascade.OneLine t.text.toList := by
  have hbroken : ¬ Token.OneLine ⟨.delim, "\n", Position.none, .none⟩ := by
    simp [Token.OneLine, tokenText]
  have hbracket := h.isBracket.resolve_right fun hall => hbroken (hall _)
  have htext : tokenText false t = t.text.toList := by
    unfold tokenText
    cases htype : t.type <;> first | rfl | (rw [htype] at hbracket; cases hbracket)
  exact htext ▸ h.has

namespace Lexer

theorem oneLine_numeral (n : Numeral) :
    OneLine n.text := by
  have hsign (s : Sign) : OneLine s.text := by cases s <;> decide
  have hdigits {s : List Char} (h : ∀ c ∈ s, isDigit c = true) : OneLine s :=
    oneLine_of_forall (by decide) h
  have hfraction : OneLine (fractionText n.fraction) := by
    unfold fractionText
    split
    · exact oneLine_nil
    · exact oneLine_cons.mpr ⟨by decide, hdigits n.isDigit_fraction⟩
  have hexponent : OneLine n.exponentText := by
    unfold Numeral.exponentText
    cases n.exponent with
    | none => exact oneLine_nil
    | some x =>
        have hletter : x.letter ≠ '\n' := by
          rcases x.isLetter with h | h <;> (rw [h]; decide)
        simp [Exponent.text, hletter, hsign, hdigits x.isDigit_digits]
  simp [Numeral.text, hsign, hdigits n.isDigit_whole, hfraction, hexponent]

/-- A token that is spelled by a text is written on one line. -/
theorem Lexeme.oneLine {rest u : List Char} {t : Token} (h : Lexeme rest u t) :
    t.OneLine := by
  unfold Token.OneLine
  cases h with
  | whitespace | cdo | cdc => simp [tokenText]
  | ident => simp [tokenText]
  | function => simp [tokenText]
  | @address u s run v address close wellFormed =>
      cases wellFormed <;> simp [tokenText, oneLine_escapeUrl]
  | atKeyword => simp [tokenText]
  | hash =>
      simp only [tokenText, oneLine_cons]
      refine ⟨by decide, ?_⟩
      split
      · exact oneLine_escapeIdent _
      · exact oneLine_escapeName _
  | @string q v s close wellFormed =>
      cases wellFormed <;> exact oneLine_quoteString _ _
  | number => simpa [tokenText, numberText] using oneLine_numeral _
  | percentage => simpa [tokenText, numberText] using oneLine_numeral _
  | dimension =>
      simpa [tokenText, numberText] using ⟨oneLine_numeral _, oneLine_escapeName _⟩
  | punctuation hmem =>
      rw [tokenText_punctuation hmem]
      have hall : ∀ d ∈ Output.punctuation, d.1 ≠ '\n' := by decide
      simpa using hall _ hmem
  | @delim c p hmark =>
      have hline : c ≠ '\n' := by
        rintro rfl
        revert hmark
        decide
      simpa [tokenText] using hline

theorem Covers.oneLine {before rest : List Char} {tokens : List Token}
    (h : Covers before rest tokens) :
    ∀ t ∈ tokens, t.OneLine := by
  induction h with
  | eof => exact List.forall_mem_singleton.mpr oneLine_nil
  | token _ _ hlexeme _ ih => exact List.forall_mem_cons.mpr ⟨hlexeme.oneLine, ih⟩

end Lexer

namespace Output

theorem oneLine_valuesAfter {vs : List Value} (h : ∀ v ∈ vs, OneLine (valueText false v))
    (before : Option Value) :
    OneLine (valuesAfter false before vs) := by
  induction vs generalizing before with
  | nil => exact oneLine_nil
  | cons v vs ih =>
      obtain ⟨hv, hvs⟩ := List.forall_mem_cons.mp h
      rw [valuesAfter]
      split
      · split
        · exact oneLine_cons.mpr ⟨by decide, ih hvs _⟩
        · exact ih hvs _
      · exact oneLine_append.mpr ⟨hv, ih hvs _⟩

theorem oneLine_argumentsText {args : List (List Value)}
    (h : ∀ arg ∈ args, ∀ v ∈ arg, OneLine (valueText false v)) :
    OneLine (argumentsText false args) := by
  induction args with
  | nil => exact oneLine_nil
  | cons arg args ih =>
      obtain ⟨harg, hargs⟩ := List.forall_mem_cons.mp h
      cases args with
      | nil => exact oneLine_valuesAfter harg none
      | cons next more => simp [argumentsText, oneLine_valuesAfter harg, ih hargs]

theorem oneLine_closerText (opener : TokenType) :
    OneLine (closerText opener) := by
  cases opener <;> decide

theorem oneLine_valueText {v : Value} (h : v.AllTokens Token.OneLine) :
    OneLine (valueText false v) := by
  induction h with
  | token ht => exact ht
  | block hopener _ _ ih =>
      simp [valueText, hopener.oneLine, oneLine_valuesAfter ih, oneLine_closerText]
  | call _ _ _ _ ih => simp [valueText, oneLine_argumentsText ih]
  | reference => exact oneLine_nil

/-- Values that are made of such tokens are written on one line. -/
theorem oneLine_valuesText {vs : List Value} (h : ∀ v ∈ vs, v.AllTokens Token.OneLine) :
    OneLine (valuesText false vs) :=
  oneLine_valuesAfter (fun v hv => oneLine_valueText (h v hv)) none

/-! ## Selectors -/

theorem oneLine_qualifierText (q : Option Qualifier) :
    OneLine (qualifierText q) := by
  unfold qualifierText
  split
  · exact oneLine_nil
  · split
    · decide
    · split <;> simp

theorem oneLine_typeText (t : TypeSelector) :
    OneLine (typeText t) := by
  cases t <;> simp [typeText, oneLine_qualifierText]

theorem oneLine_attributeValueText (t : Token) :
    OneLine (attributeValueText t) := by
  unfold attributeValueText
  split
  · exact oneLine_quoteString _ _
  · exact oneLine_escapeIdent _

theorem oneLine_attributeText {a : Attribute} {vs : List Value} (h : a.WrittenBehind vs) :
    OneLine (attributeText a) := by
  have hsigns : ∀ s ∈ matcherSigns, OneLine s.toList := by decide
  have hwords : ∀ s ∈ modifierWords, OneLine s.toList := by decide
  cases h with
  | plain => simp [attributeText, oneLine_qualifierText]
  | @valued opener name value closer q m modifier _ _ _ _ _ _ _ _ _ hm _ _ _ hmodifier =>
      have hsign : OneLine ((m.sign.map (·.text.toList)).getD []) :=
        oneLine_getD fun t ht => hsigns _ (List.contains_iff_mem.mp (hm.sign t ht).2)
      have hword : OneLine ((modifier.map fun t => ' ' :: t.text.toList).getD []) :=
        oneLine_getD fun t ht => oneLine_cons.mpr
          ⟨by decide, hwords _ (List.contains_iff_mem.mp (hmodifier t ht).2)⟩
      simp [attributeText, oneLine_qualifierText, oneLine_attributeValueText, hsign, hword]

/-- What is written by values that are made of such tokens. -/
abbrev Given (vs : List Value) : Prop :=
  ∀ v ∈ vs, v.AllTokens Token.OneLine

theorem oneLine_pseudoText {p : PseudoClass} {vs : List Value} (h : p.WrittenAs vs)
    (hvs : Given vs) :
    OneLine (pseudoText false p) := by
  cases h with
  | plain => simp [pseudoText]
  | @function colon name closer argument _ _ _ _ =>
      have hargument : OneLine (valuesText false argument) :=
        oneLine_valuesText fun v hv => hvs v (by simp [hv])
      simp [pseudoText, hargument]
  | @call colon name closer args commas _ =>
      cases hvs (.call name args commas (some closer)) (by simp) with
      | call _ hargs hcommas _ =>
          have hargument : OneLine (valuesText false (flattenArguments args commas)) := by
            refine oneLine_valuesText fun v hv => ?_
            rcases mem_flattenArguments hv with ⟨arg, harg, hv⟩ | ⟨t, ht, rfl⟩
            · exact hargs arg harg v hv
            · exact .token (hcommas t ht)
          simp [pseudoText, hargument]

theorem oneLine_nestingText {parent : List Char} (h : OneLine parent) (atStart : Bool) :
    OneLine (nestingText atStart parent) := by
  unfold nestingText
  dsimp only
  split
  · exact h
  · simp [h]

theorem oneLine_subclassText {s : Subclass} {vs : List Value} (h : s.WrittenAs vs)
    (hvs : Given vs) {parent : List Char} (hparent : OneLine parent) (atStart : Bool) :
    OneLine (subclassText false parent atStart s) := by
  cases h with
  | id => simp [subclassText]
  | className => simp [subclassText]
  | attr h =>
      cases h with
      | flat _ hbehind => exact oneLine_attributeText hbehind
      | block _ hbehind _ => exact oneLine_attributeText hbehind
  | pseudo h => exact oneLine_pseudoText h hvs
  | nesting => exact oneLine_nestingText hparent atStart

theorem oneLine_pseudoElementText {e : PseudoElement} {vs : List Value} (h : e.WrittenAs vs)
    (hvs : Given vs) :
    OneLine (pseudoElementText false e) := by
  cases h with
  | intro _ helement hclasses =>
      obtain ⟨-, hvs⟩ := List.forall_mem_cons.mp hvs
      obtain ⟨hus, hvs⟩ := List.forall_mem_append.mp hvs
      have hall := hclasses.forall_of_forall hvs fun p us hp hus => oneLine_pseudoText hp hus
      simp [pseudoElementText, oneLine_pseudoText helement hus, oneLine_flatMap hall]

theorem oneLine_compoundText {c : Compound} {vs : List Value} (h : c.WrittenAs vs)
    (hvs : Given vs) {parent : List Char} (hparent : OneLine parent) :
    OneLine (compoundText false parent c) := by
  cases h with
  | intro _ hsubclasses hpseudos _ =>
      obtain ⟨-, hvs⟩ := List.forall_mem_append.mp hvs
      obtain ⟨hus, hvs⟩ := List.forall_mem_append.mp hvs
      have hconditions := hsubclasses.forall_of_forall hus fun s us hs hus =>
        oneLine_subclassText hs hus hparent
      have helements := hpseudos.forall_of_forall hvs fun e us he hus => oneLine_pseudoElementText he hus
      have htype : OneLine ((c.type.map typeText).getD []) :=
        oneLine_getD fun t _ => oneLine_typeText t
      unfold compoundText
      dsimp only
      split
      · simp [htype, oneLine_flatMap helements]
      · next s rest heq =>
          rw [heq] at hconditions
          obtain ⟨hfirst, hrest⟩ := List.forall_mem_cons.mp hconditions
          have hbehind := oneLine_flatMap fun s hs => hrest s hs false
          simp [htype, hfirst, hbehind, oneLine_flatMap helements]

theorem oneLine_combinatorText (c : Combinator) :
    OneLine (combinatorText false c) := by
  cases c <;> decide

/-- A selector that is written by such values is written on one line, if the text for references to
the parent is. -/
theorem oneLine_complexText {s : ComplexSelector} {vs : List Value} (h : s.WrittenAs vs)
    (hvs : Given vs) {parent : List Char} (hparent : OneLine parent) :
    OneLine (complexText false parent s) := by
  cases h with
  | @intro first others us vs hfirst hothers =>
      obtain ⟨hus, hvs⟩ := List.forall_mem_append.mp hvs
      have hall : ∀ p ∈ others, OneLine (combinatorText false p.combinator ++
          compoundText false parent p.compound) := by
        refine hothers.forall_of_forall hvs fun p us hp hus => ?_
        cases hp with
        | intro _ hcompound =>
            obtain ⟨-, hus⟩ := List.forall_mem_append.mp hus
            simp [oneLine_combinatorText, oneLine_compoundText hcompound hus hparent]
      simp only [complexText, oneLine_append]
      exact ⟨oneLine_compoundText hfirst hus hparent, oneLine_flatMap hall⟩

theorem oneLine_joinSelectors {selectors : List (List Char)} (h : ∀ s ∈ selectors, OneLine s) :
    OneLine (joinSelectors false selectors) :=
  intercalate_of_append oneLine_nil (fun hs ht => oneLine_append.mpr ⟨hs, ht⟩) (by decide) h

theorem oneLine_referenceText {parents : List (List Char)} (h : ∀ p ∈ parents, OneLine p)
    (s : ComplexSelector) :
    OneLine (referenceText false parents s) := by
  unfold referenceText
  split
  · decide
  · split
    · unfold parentText
      split
      · exact h _ List.mem_cons_self
      · have hjoin := oneLine_joinSelectors h
        simp [hjoin]
    · exact oneLine_nil

/-- The selectors of a rule are written on one line inside a rule whose selectors are. -/
theorem oneLine_resolveSelectors {list : SelectorList} {vs : List Value} (h : list.WrittenAs vs)
    (hvs : Given vs) {parents : List (List Char)} (hparents : ∀ p ∈ parents, OneLine p) :
    ∀ p ∈ resolveSelectors false parents list, OneLine p := by
  have htext : ∀ s ∈ list, OneLine (complexText false (referenceText false parents s) s) :=
    h.forall_of_forall hvs fun s us hs hus =>
      oneLine_complexText hs hus (oneLine_referenceText hparents s)
  intro p hp
  rw [resolveSelectors_eq] at hp
  obtain ⟨s, hs, hp⟩ := List.mem_flatMap.mp hp
  split at hp
  · obtain rfl := List.mem_singleton.mp hp
    exact htext s hs
  · obtain ⟨parent, hparent, rfl⟩ := List.mem_map.mp hp
    simp [hparents parent hparent, htext s hs]

/-! ## Flat rules -/

/-- No text of the flat rule has a line end. -/
inductive Flat.OneLine : Flat → Prop
  | rule {head : List Char} {decls : List Declaration} :
      Cascade.OneLine head → (∀ d ∈ decls, Cascade.OneLine (declarationText false d)) →
      OneLine (.rule head decls)
  | statement {head : List Char} : Cascade.OneLine head → OneLine (.statement head)
  | group {head : List Char} {body : List Flat} :
      Cascade.OneLine head → (∀ flat ∈ body, OneLine flat) → OneLine (.group head body)
  | declarations {decls : List Declaration} {last : Bool} :
      (∀ d ∈ decls, Cascade.OneLine (declarationText false d)) → OneLine (.declarations decls last)

theorem oneLine_atHead (name : Token) {prelude : List Value} (h : Given prelude) :
    OneLine (atHead false name prelude) := by
  unfold atHead
  dsimp only
  split <;> simp [oneLine_valuesText h]

theorem oneLine_declarationText {d : Declaration} (h : Given d.value) :
    OneLine (declarationText false d) := by
  have hmark : OneLine (if d.important then [' '] ++ "!important".toList else []) := by
    split <;> decide
  rw [declarationText, oneLine_append, oneLine_append, oneLine_append]
  exact ⟨⟨⟨oneLine_escapeIdent _, by decide⟩, oneLine_valuesText h⟩, hmark⟩

/-- The declarations of a body are written on one line. -/
theorem oneLine_of_mem_body {body : List Entry} (h : ∀ e ∈ body, e.Sound Token.OneLine)
    {d : Declaration} (hd : .declaration d ∈ body) :
    OneLine (declarationText false d) :=
  oneLine_declarationText fun v hv => (h _ hd _ .self v hv).tokens

theorem oneLine_of_mem_declarationsOf {body : List Entry} (h : ∀ e ∈ body, e.Sound Token.OneLine) :
    ∀ d ∈ declarationsOf body, OneLine (declarationText false d) := by
  intro d hd
  obtain ⟨e, he, hfound⟩ := List.mem_filterMap.mp hd
  split at hfound
  · cases hfound
    exact oneLine_of_mem_body h he
  · cases hfound

/-- Laid flat inside a rule whose selectors are written on one line, a sound entry has no line end in
its texts. -/
theorem oneLine_flatten {e : Entry} (h : e.Sound Token.OneLine) {parents : List (List Char)}
    (hparents : ∀ p ∈ parents, OneLine p) {flats : List Flat}
    (hflats : flatten false parents e = .ok flats) :
    ∀ flat ∈ flats, flat.OneLine := by
  induction e using Entry.induction_body generalizing parents flats with
  | h e ih =>
      have hbody : ∀ x ∈ e.body, x.Sound Token.OneLine := fun x hx => h.of_mem_body hx
      have hrules {parents : List (List Char)} (hparents : ∀ p ∈ parents, OneLine p)
          {nested : List Flat} (hnested : flattenRules false parents e.body = .ok nested) :
          ∀ flat ∈ nested, flat.OneLine := by
        intro flat hflat
        obtain ⟨x, hx, laid, hlaid, hflat⟩ := exists_flatten_of_mem hnested hflat
        exact ih x hx (hbody x hx) hparents hlaid flat hflat
      have hdecls := oneLine_of_mem_declarationsOf hbody
      cases e with
      | style prelude list body =>
          obtain ⟨hprelude, hparse⟩ := h _ .self
          have hselectors := oneLine_resolveSelectors (Selector.parse_eq_ok_iff.mp hparse)
            hprelude.tokens hparents
          rw [flatten] at hflats
          split at hflats
          · cases hflats
          · obtain ⟨nested, hnested, hflats⟩ := Outcome.ok_of_bind hflats
            split at hflats
            · cases hflats
              exact hrules hselectors hnested
            · cases hflats
              exact List.forall_mem_cons.mpr
                ⟨.rule (oneLine_joinSelectors hselectors) hdecls, hrules hselectors hnested⟩
      | statement name prelude =>
          have hprelude : Read.AllSound Token.OneLine prelude := h _ .self
          rw [flatten] at hflats
          cases hflats
          exact List.forall_mem_singleton.mpr (.statement (oneLine_atHead name hprelude.tokens))
      | group name prelude opener body closer =>
          have hprelude : Read.AllSound Token.OneLine prelude := h _ .self
          have hhead := oneLine_atHead name hprelude.tokens
          rw [flatten] at hflats
          split at hflats
          · obtain ⟨laid, hlaid, hflats⟩ := Outcome.ok_of_bind hflats
            cases hflats
            refine List.forall_mem_singleton.mpr (.group hhead fun flat hflat => ?_)
            rcases exists_flatten_of_mem_body hlaid hflat with
              ⟨decls, last, rfl, hmem⟩ | ⟨x, hx, laid, hlaid, hflat⟩
            · refine .declarations fun d hd => oneLine_of_mem_body hbody ?_
              exact (hmem d hd).resolve_left List.not_mem_nil
            · exact ih x hx (hbody x hx) (List.forall_mem_nil _) hlaid flat hflat
          · obtain ⟨nested, hnested, hflats⟩ := Outcome.ok_of_bind hflats
            cases hflats
            refine List.forall_mem_singleton.mpr (.group hhead (List.forall_mem_append.mpr ⟨?_, ?_⟩))
            · split
              · exact List.forall_mem_nil _
              · exact List.forall_mem_singleton.mpr (.rule (oneLine_joinSelectors hparents) hdecls)
            · exact hrules hparents hnested
      | keyframe prelude opener body closer =>
          have hprelude : Read.AllSound Token.OneLine prelude := h _ .self
          rw [flatten] at hflats
          split at hflats
          · cases hflats
          · cases hflats
            exact List.forall_mem_singleton.mpr (.rule (oneLine_valuesText hprelude.tokens) hdecls)
      | declaration | loose =>
          rw [flatten] at hflats
          · cases hflats
          all_goals
            intros
            contradiction

end Output

/-! ## Lines -/

/-- The line is empty, or ends with a brace or a semicolon. -/
structure IsWrittenLine (line : List Char) : Prop where
  oneLine : OneLine line
  ends : ∀ c ∈ line.getLast?, c ∈ ['\x7b', '\x7d', ';']

/-- The text consists of such lines, each with its end. -/
def InLines (s : List Char) : Prop :=
  ∃ lines, s = linesText lines ∧ ∀ line ∈ lines, IsWrittenLine line

theorem inLines_nil :
    InLines [] :=
  ⟨[], rfl, List.forall_mem_nil _⟩

theorem InLines.append {s t : List Char} (hs : InLines s) (ht : InLines t) :
    InLines (s ++ t) := by
  obtain ⟨first, rfl, hfirst⟩ := hs
  obtain ⟨others, rfl, hothers⟩ := ht
  exact ⟨first ++ others, List.flatMap_append.symm, List.forall_mem_append.mpr ⟨hfirst, hothers⟩⟩

theorem inLines_emptyLine :
    InLines ['\n'] :=
  ⟨[[]], rfl, List.forall_mem_singleton.mpr ⟨oneLine_nil, nofun⟩⟩

/-- A text on one line with a brace or a semicolon behind it is such a line. -/
theorem inLines_line {s : List Char} (hs : OneLine s) {c : Char} (hc : c ∈ ['\x7b', '\x7d', ';']) :
    InLines (s ++ [c, '\n']) := by
  have hline : c ≠ '\n' := by
    rintro rfl
    simp at hc
  refine ⟨[s ++ [c]], by simp [linesText], List.forall_mem_singleton.mpr ⟨?_, ?_⟩⟩
  · simp [hs, hline]
  · simpa using hc

namespace Output

variable {style : Style}

theorem oneLine_indentText (style : Style) (level : Nat) :
    OneLine (indentText style level) := by
  unfold indentText
  split
  · exact oneLine_nil
  · intro hline
    exact absurd (List.eq_of_mem_replicate hline) (by decide)

theorem inLines_declarationsText (hminify : style.minify = false) (level : Nat) (last : Bool)
    {decls : List Declaration} (h : ∀ d ∈ decls, OneLine (declarationText false d)) :
    InLines (declarationsText style level last decls) := by
  induction decls with
  | nil => exact inLines_nil
  | cons d ds ih =>
      obtain ⟨hd, hds⟩ := List.forall_mem_cons.mp h
      have hline := inLines_line (c := ';')
        (oneLine_append.mpr ⟨oneLine_indentText style level, hd⟩) (by decide)
      simpa [declarationsText, hminify, lineEnd] using hline.append (ih hds)

theorem inLines_openText (hminify : style.minify = false) (level : Nat) {head : List Char}
    (h : OneLine head) :
    InLines (openText style level head) := by
  have hspace : OneLine (indentText style level ++ head ++ [' ']) := by
    simp [oneLine_indentText, h]
  simpa [openText, hminify] using inLines_line (c := '\x7b') hspace (by decide)

theorem inLines_closeText (hminify : style.minify = false) (level : Nat) :
    InLines (closeText style level) := by
  simpa [closeText, hminify, lineEnd] using
    inLines_line (c := '\x7d') (oneLine_indentText style level) (by decide)

theorem inLines_flatsText {level : Nat} {flats : List Flat}
    (h : ∀ flat ∈ flats, InLines (flatText style level flat)) :
    InLines (flatsText style level flats) := by
  induction flats with
  | nil => exact inLines_nil
  | cons flat rest ih =>
      obtain ⟨hflat, hrest⟩ := List.forall_mem_cons.mp h
      exact hflat.append (ih hrest)

theorem inLines_flatText (hminify : style.minify = false) {flat : Flat} (h : flat.OneLine)
    (level : Nat) :
    InLines (flatText style level flat) := by
  induction h generalizing level with
  | rule hhead hdecls =>
      have hbody := inLines_declarationsText hminify (level + 1) true hdecls
      exact ((inLines_openText hminify level hhead).append hbody).append (inLines_closeText hminify level)
  | statement hhead =>
      simpa [flatText, hminify, lineEnd] using inLines_line (c := ';')
        (oneLine_append.mpr ⟨oneLine_indentText style level, hhead⟩) (by decide)
  | group hhead _ ih =>
      have hbody := inLines_flatsText fun flat hflat => ih flat hflat (level + 1)
      exact ((inLines_openText hminify level hhead).append hbody).append (inLines_closeText hminify level)
  | declarations hdecls => exact inLines_declarationsText hminify level _ hdecls

end Output

namespace Sheet

open Output

/-- A stylesheet that has been read and is written neither in the short form nor with a comment at the
top has lines that are empty or end with a brace or a semicolon. -/
theorem inLines_of_formatRules {budget : Nat} {limits : Limits} {file source : String} {sheet : Sheet}
    (h : (parseTokens budget limits file (tokenize source)).1 = .ok sheet) {style : Style}
    (hminify : style.minify = false) (hheader : style.header = "") {text : String}
    (htext : formatRules style sheet.rules = .ok text) :
    InLines text.toList := by
  have hsound := sound_of_ok aliasClosed_oneLine (covers_tokenize source).oneLine
    (Lexer.exists_eof source) h
  unfold formatRules at htext
  rw [hminify] at htext
  cases hflats : sheet.rules.mapM (flatten false []) with
  | error m =>
      rw [hflats] at htext
      cases htext
  | ok flats =>
      rw [hflats] at htext
      cases htext
      have hflat : ∀ flat ∈ flats.flatten, flat.OneLine := by
        intro flat hflat
        obtain ⟨top, htop, laid, hlaid, hflat⟩ := exists_flatten_of_mem_flattened hflats hflat
        exact oneLine_flatten (hsound top htop) (List.forall_mem_nil _) hlaid flat hflat
      have hlines : InLines ((lineEnd style).intercalate (flats.flatten.map (flatText style 0))) := by
        refine intercalate_of_append inLines_nil InLines.append ?_ ?_
        · simpa [lineEnd, hminify] using inLines_emptyLine
        · intro part hpart
          obtain ⟨flat, hmem, rfl⟩ := List.mem_map.mp hpart
          exact inLines_flatText hminify (hflat flat hmem) 0
      simpa [sheetText, headerText, hheader] using hlines

end Sheet
end Cascade
