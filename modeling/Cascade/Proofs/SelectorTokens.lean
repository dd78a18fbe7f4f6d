import Cascade.Output.Selectors
import Cascade.Proofs.Adjacency
import Cascade.Proofs.Provenance
import Cascade.Proofs.SelectorGrammar
import Cascade.Proofs.SourceTokens

/-!
# The tokens of written selectors

A written selector is the text of the tokens that the selector was read from, with
the spaces that its form asks for.  Where these tokens are the plain tokens of a
source, they are read back from the text, whatever their names: only the argument of
a pseudo-class, which is written value by value, has to be legible by itself.

**Method.**  The functions `tokens` list what each part of a selector is written as.
Each part is open-ended, and every part behind the first starts with a token that ends a
name (`Follows`); so it does not matter what stands beside it.

**Results.**
* `openEnded_complexSelector`: the text of a complex selector is that of open-ended tokens.
-/

namespace Cascade
open Lexer Output

/-! ## The tokens of the parts -/

/-- A single space. -/
def spaceToken : Token :=
  ⟨.whitespace, " ", Position.none, .none⟩

/-- A closing parenthesis. -/
def closeParenToken : Token :=
  ⟨.closeParen, ")", Position.none, .none⟩

/-- The tokens of a qualifier. -/
def Qualifier.tokens (q : Qualifier) : List Token :=
  q.name.toList ++ [q.bar]

/-- The tokens of a qualifier that may be missing. -/
def qualifierTokens (q : Option Qualifier) : List Token :=
  (q.map Qualifier.tokens).getD []

/-- The tokens of a type selector. -/
def TypeSelector.tokens : TypeSelector → List Token
  | .named q ident => qualifierTokens q ++ [ident]
  | .universal q star => qualifierTokens q ++ [star]

/-- The tokens of a matcher. -/
def Matcher.tokens (m : Matcher) : List Token :=
  m.sign.toList ++ [m.equals]

/-- The tokens that an attribute selector is written as. -/
def Attribute.tokens (a : Attribute) : List Token :=
  a.opener :: (qualifierTokens a.qualifier ++ a.name :: ((a.matcher.map Matcher.tokens).getD [] ++
    (a.value.toList ++ ((a.modifier.map fun t => [spaceToken, t]).getD [] ++ [a.closer]))))

/-- The tokens of a written argument. -/
def writtenArgument (minify : Bool) (vs : List Value) : List Token :=
  contents (formatValues minify vs)

/-- The tokens of a written argument between its function and its parenthesis. -/
def callTokens (minify : Bool) (name : Token) (vs : List Value) : List Token :=
  { name with type := .function } :: (writtenArgument minify vs ++ [closeParenToken])

/-- The tokens that a pseudo-class is written as. -/
def PseudoClass.tokens (minify : Bool) (p : PseudoClass) : List Token :=
  p.colon :: (p.argument.map (callTokens minify p.name)).getD [p.name]

/-- The argument of a pseudo-class, if it has one, is read back as it is written, and every token
of it ends before the next, up to its parenthesis. -/
def PseudoClass.Legible (minify : Bool) (p : PseudoClass) : Prop :=
  ∀ vs ∈ p.argument,
    p.name.type = .function ∧ textOf (writtenArgument minify vs) = valuesText minify vs ∧
      (∀ t ∈ writtenArgument minify vs, t.Readable) ∧ Joined (callTokens minify p.name vs)

instance decidableJoined : DecidablePred Joined
  | [] => isTrue trivial
  | t :: ts =>
    have := decidableJoined ts
    inferInstanceAs (Decidable (t.stopsBefore (textOf ts) = true ∧ Joined ts))

/-- The argument of a pseudo-class, if it has one, is written with names, strings, marks, punctuation
and single spaces, each of which ends before the next. -/
def PseudoClass.isPlain (minify : Bool) (p : PseudoClass) : Bool :=
  p.argument.all fun vs =>
    p.name.type == .function && textOf (writtenArgument minify vs) == valuesText minify vs &&
      (writtenArgument minify vs).all (fun t => t.isPlain || t.unplaced == spaceToken) &&
      decide (Joined (callTokens minify p.name vs))

/-- The tokens that a condition is written as, with tokens for a reference to the parent. -/
def Subclass.tokens (minify : Bool) (reference : List Token) : Subclass → List Token
  | .id t => [t]
  | .className dot ident => [dot, ident]
  | .attr a => a.tokens
  | .pseudo p => p.tokens minify
  | .nesting _ => reference

/-- The tokens that a pseudo-element is written as, with the pseudo-classes behind it. -/
def PseudoElement.tokens (minify : Bool) (p : PseudoElement) : List Token :=
  p.colon :: (p.element.tokens minify ++ p.classes.flatMap (PseudoClass.tokens minify))

/-- The tokens that conditions are written as.  The tokens for a reference may depend on whether it
stands at the start. -/
def conditionTokens (minify : Bool) (reference : Bool → List Token) (atStart : Bool) :
    List Subclass → List Token
  | [] => []
  | s :: rest =>
    s.tokens minify (reference atStart) ++ rest.flatMap (Subclass.tokens minify (reference false))

/-- The tokens that a compound is written as. -/
def Compound.tokens (minify : Bool) (reference : Bool → List Token) (c : Compound) : List Token :=
  (c.type.map TypeSelector.tokens).getD [] ++
    (conditionTokens minify reference c.type.isNone c.subclasses ++
      c.pseudos.flatMap (PseudoElement.tokens minify))

/-- The tokens that a combinator is written as. -/
def SelectorPart.signTokens (minify : Bool) (p : SelectorPart) : List Token :=
  match p.combinator with
  | .descendant => [spaceToken]
  | _ => if minify then p.tokens else spaceToken :: (p.tokens ++ [spaceToken])

/-- The tokens that a complex selector is written as. -/
def ComplexSelector.tokens (minify : Bool) (reference : Bool → List Token) :
    ComplexSelector → List Token
  | [] => []
  | first :: rest =>
    first.compound.tokens minify reference ++
      rest.flatMap fun p => p.signTokens minify ++ p.compound.tokens minify reference

/-! ## The pseudo-classes of a selector -/

/-- The pseudo-class that a condition is, if it is one. -/
def Subclass.pseudoClasses : Subclass → List PseudoClass
  | .pseudo p => [p]
  | _ => []

/-- The pseudo-classes of a compound, those in pseudo-elements too. -/
def Compound.pseudoClasses (c : Compound) : List PseudoClass :=
  c.subclasses.flatMap Subclass.pseudoClasses ++ c.pseudos.flatMap fun p => p.element :: p.classes

/-- The pseudo-classes of a complex selector. -/
def ComplexSelector.pseudoClasses (s : ComplexSelector) : List PseudoClass :=
  s.flatMap fun part => part.compound.pseudoClasses

/-- All arguments in the selector are legible. -/
def ComplexSelector.Legible (minify : Bool) (s : ComplexSelector) : Prop :=
  ∀ p ∈ s.pseudoClasses, p.Legible minify

/-! ## Lists of tokens that follow each other -/

/-- The tokens are open-ended, and a name ends before them. -/
structure Follows (minify : Bool) (ts : List Token) : Prop where
  openEnded : OpenEnded minify ts
  ends : EndsName minify ts

/-- The tokens are open-ended, and they start as a compound does. -/
structure Opens (minify : Bool) (ts : List Token) : Prop where
  openEnded : OpenEnded minify ts
  head : ∃ t us, ts = t :: us ∧ t.opensCompound = true

section Lists

variable {minify : Bool} {ts us : List Token}

theorem Follows.nil :
    Follows minify [] :=
  ⟨.nil, rfl⟩

theorem EndsName.append (hts : EndsName minify ts) (hus : EndsName minify us) :
    EndsName minify (ts ++ us) := by
  cases ts with
  | nil => exact hus
  | cons t ts => exact hts

theorem Follows.append (hts : Follows minify ts) (hus : Follows minify us) :
    Follows minify (ts ++ us) :=
  ⟨hts.openEnded.append hus.openEnded hus.ends, hts.ends.append hus.ends⟩

theorem Follows.flatMap {α : Type} {f : α → List Token} {as : List α}
    (h : ∀ a ∈ as, Follows minify (f a)) :
    Follows minify (as.flatMap f) := by
  induction as with
  | nil => exact .nil
  | cons a as ih =>
      obtain ⟨ha, has⟩ := List.forall_mem_cons.mp h
      exact ha.append (ih has)

theorem Opens.append (hts : Opens minify ts) (hus : Follows minify us) :
    Opens minify (ts ++ us) := by
  obtain ⟨t, vs, rfl, ht⟩ := hts.head
  exact ⟨hts.openEnded.append hus.openEnded hus.ends, t, vs ++ us, rfl, ht⟩

theorem Token.isVisible_of_opensCompound {t : Token} (h : t.opensCompound = true) :
    t.isWhitespace = false := by
  unfold opensCompound at h
  unfold isWhitespace
  split at h <;> simp_all

/-- A space before a compound. -/
theorem Opens.space (h : Opens minify ts) :
    Follows minify (spaceToken :: ts) := by
  obtain ⟨t, us, rfl, ht⟩ := h.head
  have hreadable := h.openEnded.readable t List.mem_cons_self
  exact ⟨h.openEnded.cons_space hreadable (Token.isVisible_of_opensCompound ht), rfl⟩

end Lists

/-- The text is that of tokens that may start a compound and may stand behind a name. -/
structure IsPart (minify : Bool) (ts : List Token) (cs : List Char) : Prop where
  follows : Follows minify ts
  opens : Opens minify ts
  text : textOf ts = cs

theorem textOf_flatMap {α : Type} {f : α → List Token} {g : α → List Char} {as : List α}
    (h : ∀ a ∈ as, textOf (f a) = g a) :
    textOf (as.flatMap f) = as.flatMap g := by
  rw [textOf, List.flatMap_assoc]
  exact List.flatMap_congr h

/-! ## Parts that have been read -/

/-- If the token is plain, it can be read back from what it is written as. -/
def Token.Writable (t : Token) : Prop :=
  t.isPlain = true → t.Readable

/-- The tree is written by values whose tokens can be read back. -/
def ReadFrom {α : Type} (W : α → List Value → Prop) (a : α) : Prop :=
  ∃ vs, W a vs ∧ ∀ v ∈ vs, v.AllTokens Token.Writable

theorem Token.isPlain_of_isDelim {t : Token} {s : String} (h : t.isDelim s = true) (hs : s ≠ "\\") :
    t.isPlain = true := by
  simp only [isDelim, Bool.and_eq_true, beq_iff_eq] at h
  simp [isPlain, h.1, h.2, hs]

theorem Token.isPlain_of_isName {t : Token} (h : (Value.token t).isName = true) :
    t.isPlain = true := by
  simp only [Value.isName, Value.hasType, Value.isDelim, Bool.or_eq_true, beq_iff_eq] at h
  rcases h with h | h
  · simp [isPlain, h]
  · exact isPlain_of_isDelim h (by decide)

section Values

variable {vs : List Value}

theorem readable_of_mem (hvs : ∀ v ∈ vs, v.AllTokens Token.Writable) {t : Token}
    (ht : .token t ∈ vs) (hplain : t.isPlain = true) :
    t.Readable := by
  cases hvs _ ht with
  | token h => exact h hplain

theorem readable_of_type (hvs : ∀ v ∈ vs, v.AllTokens Token.Writable) {t : Token}
    (ht : .token t ∈ vs) {type : TokenType} (htype : t.type = type)
    (hplain : type ∈ [.ident, .function, .string, .colon, .comma, .openBracket, .closeBracket]) :
    t.Readable := by
  refine readable_of_mem hvs ht ?_
  subst htype
  simp only [List.mem_cons, List.not_mem_nil, or_false] at hplain
  rcases hplain with h | h | h | h | h | h | h <;> simp [Token.isPlain, h]

theorem readable_of_delim (hvs : ∀ v ∈ vs, v.AllTokens Token.Writable) {t : Token}
    (ht : .token t ∈ vs) {s : String} (h : t.isDelim s = true) (hs : s ≠ "\\") :
    t.Readable :=
  readable_of_mem hvs ht (Token.isPlain_of_isDelim h hs)

theorem forall_readFrom {α : Type} {W : α → List Value → Prop} {as : List α}
    (h : WrittenAll W as vs) (hvs : ∀ v ∈ vs, v.AllTokens Token.Writable) :
    ∀ a ∈ as, ReadFrom W a :=
  h.forall_of_forall hvs fun _ us ha hus => ⟨us, ha, hus⟩

theorem forall_readFrom_list {list : SelectorList} (h : list.WrittenAs vs)
    (hvs : ∀ v ∈ vs, v.AllTokens Token.Writable) :
    ∀ s ∈ list, ReadFrom ComplexSelector.WrittenAs s :=
  h.forall_of_forall hvs fun _ us hs hus => ⟨us, hs, hus⟩

theorem qualifierYield_eq (q : Option Qualifier) :
    qualifierYield q = (qualifierTokens q).map .token := by
  cases q <;> rfl

theorem readable_qualifier (hvs : ∀ v ∈ vs, v.AllTokens Token.Writable) {q : Option Qualifier}
    (hq : ∀ p ∈ q, p.Proper) (h : ∀ v ∈ qualifierYield q, v ∈ vs) :
    ∀ t ∈ qualifierTokens q, t.Readable := by
  rw [qualifierYield_eq] at h
  intro t ht
  refine readable_of_mem hvs (h _ (List.mem_map_of_mem ht)) ?_
  cases q with
  | none => cases ht
  | some q =>
      obtain ⟨hname, hbar⟩ := hq q rfl
      rcases List.mem_append.mp ht with ht | ht
      · exact Token.isPlain_of_isName (hname t (Option.mem_toList.mp ht))
      · obtain rfl := List.mem_singleton.mp ht
        exact Token.isPlain_of_isDelim hbar (by decide)

theorem readable_matcher (hvs : ∀ v ∈ vs, v.AllTokens Token.Writable) {m : Matcher} (hm : m.Proper)
    (h : ∀ v ∈ m.yield, v ∈ vs) :
    ∀ t ∈ m.tokens, t.Readable := by
  intro t ht
  refine readable_of_mem hvs (h _ (List.mem_map_of_mem ht)) ?_
  rcases List.mem_append.mp ht with ht | ht
  · obtain ⟨htype, hsigns⟩ := hm.sign t (Option.mem_toList.mp ht)
    have hall : ∀ s ∈ matcherSigns, s ≠ "\\" := by decide
    simpa [Token.isPlain, htype] using hall _ (List.contains_iff_mem.mp hsigns)
  · obtain rfl := List.mem_singleton.mp ht
    exact Token.isPlain_of_isDelim hm.equals (by decide)

theorem readable_typeSelector {t : TypeSelector} (ht : t.Proper)
    (hvs : ∀ v ∈ t.yield, v.AllTokens Token.Writable) :
    ∀ u ∈ t.tokens, u.Readable := by
  have hsplit {q : Option Qualifier} {name : Token} (hq : ∀ p ∈ q, p.Proper)
      (hname : (Value.token name).isName = true)
      (hvs : ∀ v ∈ qualifierYield q ++ [.token name], v.AllTokens Token.Writable) :
      ∀ u ∈ qualifierTokens q ++ [name], u.Readable :=
    List.forall_mem_append.mpr ⟨readable_qualifier hvs hq fun v hv => List.mem_append_left _ hv,
      List.forall_mem_singleton.mpr (readable_of_mem hvs (by simp) (Token.isPlain_of_isName hname))⟩
  cases t with
  | named q ident => exact hsplit ht.1 (by simp [Value.isName, Value.hasType, ht.2]) hvs
  | universal q star => exact hsplit ht.1 (by simp [Value.isName, Value.isDelim, ht.2]) hvs

end Values

/-! ## Type selectors and attributes -/

section Parts

variable {minify : Bool}

/-- A name or a star before what may follow a name. -/
theorem Opens.of_isName {t : Token} {ts : List Token} (ht : t.Readable)
    (h : (Value.token t).isName = true) (hts : Follows minify ts) :
    Opens minify (t :: ts) := by
  simp only [Value.isName, Value.hasType, Value.isDelim, Bool.or_eq_true, beq_iff_eq] at h
  rcases h with hident | hstar
  · exact ⟨hts.openEnded.cons_name ht (.inl hident) hts.ends, t, ts, rfl,
      by simp [Token.opensCompound, hident]⟩
  · obtain ⟨hdelim, htext⟩ : t.type = .delim ∧ t.text = "*" := by simpa [Token.isDelim] using hstar
    exact ⟨hts.openEnded.cons_anywhere ht (by simp [Token.endsAnywhere, hdelim, htext]), t, ts, rfl,
      by simp [Token.opensCompound, hdelim, htext]⟩

theorem tokenText_of_isName {t : Token} (h : (Value.token t).isName = true) :
    tokenText false t = if t.isDelim "*" then ['*'] else escapeIdent t.text.toList := by
  split
  · next hstar => exact tokenText_of_isDelim hstar
  · next hstar =>
      have hident : t.type = .ident := by simpa [Value.isName, Value.hasType, Value.isDelim, hstar] using h
      exact tokenText_of_ident hident

/-- A bar before a name or a star. -/
theorem Opens.bar {t : Token} {ts : List Token} (ht : t.Readable) (h : t.isDelim "|" = true)
    (hts : Opens minify ts) :
    Follows minify (t :: ts) ∧ Opens minify (t :: ts) := by
  obtain ⟨hdelim, htext⟩ : t.type = .delim ∧ t.text = "|" := by simpa [Token.isDelim] using h
  have hopenEnded := hts.openEnded.cons_anywhere ht (by simp [Token.endsAnywhere, hdelim, htext])
  exact ⟨⟨hopenEnded, by simp [EndsName, Token.endsName, nameEnds, hdelim, htext]⟩,
    hopenEnded, t, ts, rfl, by simp [Token.opensCompound, hdelim, htext]⟩

/-- A qualifier before a name or a star. -/
theorem Opens.qualifier {q : Option Qualifier} (hq : ∀ p ∈ q, p.Proper)
    (hreadable : ∀ t ∈ qualifierTokens q, t.Readable) {ts : List Token} (hts : Opens minify ts) :
    Opens minify (qualifierTokens q ++ ts) ∧ textOf (qualifierTokens q) = qualifierText q := by
  cases q with
  | none => exact ⟨hts, rfl⟩
  | some q =>
      obtain ⟨hname, hbar⟩ := hq q rfl
      obtain ⟨name, bar⟩ := q
      have hbarText : tokenText false bar = ['|'] := tokenText_of_isDelim hbar
      cases name with
      | none =>
          have hbarReadable := hreadable bar List.mem_cons_self
          exact ⟨(hts.bar hbarReadable hbar).2, by simp [qualifierTokens, Qualifier.tokens,
            qualifierText, hbarText]⟩
      | some t =>
          have hreadable : t.Readable ∧ bar.Readable := by
            simpa [qualifierTokens, Qualifier.tokens] using hreadable
          have hbehind := (hts.bar hreadable.2 hbar).1
          refine ⟨.of_isName hreadable.1 (hname t rfl) hbehind, ?_⟩
          have htext := tokenText_of_isName (hname t rfl)
          simp only [qualifierTokens, Qualifier.tokens, qualifierText, Option.map_some,
            Option.getD_some, Option.toList_some, List.singleton_append, textOf_cons, textOf_nil,
            htext, hbarText]
          split <;> rfl

/-- A type selector of readable tokens. -/
theorem Opens.typeSelector {t : TypeSelector} (h : t.Proper) (hreadable : ∀ u ∈ t.tokens, u.Readable)
    {ts : List Token} (hts : Follows minify ts) :
    Opens minify (t.tokens ++ ts) ∧ textOf t.tokens = typeText t := by
  cases t with
  | named q ident =>
      obtain ⟨hq, hident⟩ := h
      obtain ⟨hqualifier, hname⟩ := List.forall_mem_append.mp hreadable
      have hisName : (Value.token ident).isName = true := by simp [Value.isName, Value.hasType, hident]
      have hopens := Opens.of_isName (hname ident List.mem_cons_self) hisName hts
      obtain ⟨hopens, htext⟩ := hopens.qualifier hq hqualifier
      have hident := tokenText_of_ident hident
      refine ⟨by simpa [TypeSelector.tokens] using hopens, ?_⟩
      simp [TypeSelector.tokens, typeText, htext, hident]
  | universal q star =>
      obtain ⟨hq, hstar⟩ := h
      obtain ⟨hqualifier, hname⟩ := List.forall_mem_append.mp hreadable
      have hisName : (Value.token star).isName = true := by simp [Value.isName, Value.isDelim, hstar]
      have hopens := Opens.of_isName (hname star List.mem_cons_self) hisName hts
      obtain ⟨hopens, htext⟩ := hopens.qualifier hq hqualifier
      have hstar : tokenText false star = ['*'] := tokenText_of_isDelim hstar
      refine ⟨by simpa [TypeSelector.tokens] using hopens, ?_⟩
      simp [TypeSelector.tokens, typeText, htext, hstar]

/-! ## Attributes -/

/-- A matcher before a value. -/
theorem OpenEnded.matcher {m : Matcher} {ts : List Token} (hts : OpenEnded minify ts) (h : m.Proper)
    (hreadable : ∀ t ∈ m.tokens, t.Readable) :
    Follows minify (m.tokens ++ ts) ∧
      textOf m.tokens = (m.sign.map (·.text.toList)).getD [] ++ ['='] := by
  obtain ⟨sign, equals⟩ := m
  obtain ⟨hsign, hequals⟩ := h
  obtain ⟨hdelim, htext⟩ : equals.type = .delim ∧ equals.text = "=" := by
    simpa [Token.isDelim] using hequals
  have hequalsText : tokenText false equals = ['='] := tokenText_of_isDelim hequals
  have hequalsReadable := hreadable equals (by simp [Matcher.tokens])
  have hbehind : Follows minify (equals :: ts) :=
    ⟨hts.cons_anywhere hequalsReadable (by simp [Token.endsAnywhere, hdelim, htext]),
      by simp [EndsName, Token.endsName, nameEnds, hdelim, htext]⟩
  cases sign with
  | none => exact ⟨hbehind, by simp [Matcher.tokens, hequalsText]⟩
  | some t =>
      obtain ⟨htype, hsigns⟩ := hsign t rfl
      have hmem : t.text ∈ matcherSigns := List.contains_iff_mem.mp hsigns
      simp only [matcherSigns, List.mem_cons, List.not_mem_nil, or_false] at hmem
      refine ⟨⟨hbehind.openEnded.cons_anywhere (hreadable t (by simp [Matcher.tokens])) ?_, ?_⟩, ?_⟩
      · rcases hmem with h | h | h | h | h <;> simp [Token.endsAnywhere, htype, h]
      · rcases hmem with h | h | h | h | h <;>
          simp [EndsName, Matcher.tokens, Token.endsName, nameEnds, htype, h]
      · have htText : tokenText false t = t.text.toList := by simp [tokenText, htype]
        simp [Matcher.tokens, htText, hequalsText]

/-- The closing bracket of an attribute with a modifier before it, if there is one. -/
theorem Follows.modifier (minify : Bool) (modifier : Option Token) {closer : Token}
    (h : ∀ t ∈ modifier, t.Readable ∧ t.type = .ident ∧ modifierWords.contains t.text = true)
    (hcloser : closer.Readable) (htype : closer.type = .closeBracket) :
    Follows minify ((modifier.map fun t => [spaceToken, t]).getD [] ++ [closer]) ∧
      textOf ((modifier.map fun t => [spaceToken, t]).getD [] ++ [closer]) =
        (modifier.map fun t => ' ' :: t.text.toList).getD [] ++ [']'] := by
  have hcloserText : tokenText false closer = [']'] := tokenText_of_type hcloser (by decide) htype
  have hbehind : Follows minify [closer] :=
    ⟨OpenEnded.nil.cons_anywhere hcloser (by simp [Token.endsAnywhere, htype]),
      by simp [EndsName, Token.endsName, htype]⟩
  cases modifier with
  | none => exact ⟨hbehind, by simp [hcloserText]⟩
  | some t =>
      obtain ⟨ht, hident, hwords⟩ := h t rfl
      have hopens : Opens minify (t :: [closer]) :=
        ⟨hbehind.openEnded.cons_name ht (.inl hident) hbehind.ends, t, [closer], rfl,
          by simp [Token.opensCompound, hident]⟩
      refine ⟨hopens.space, ?_⟩
      have hmem : t.text ∈ modifierWords := List.contains_iff_mem.mp hwords
      have hplain : ∀ w ∈ modifierWords, escapeIdent w.toList = w.toList := by decide
      have htText : tokenText false t = t.text.toList := by
        rw [tokenText_of_ident hident, hplain _ hmem]
      have hspace : tokenText false spaceToken = [' '] := rfl
      simp [htText, hcloserText, hspace]

/-- The value of an attribute before what may follow a name. -/
theorem Follows.attributeValue {t : Token} {ts : List Token} (hts : Follows minify ts)
    (ht : t.Readable) (h : t.type = .string ∨ t.type = .ident) :
    OpenEnded minify (t :: ts) ∧ tokenText false t = attributeValueText t := by
  rcases h with h | h
  · exact ⟨hts.openEnded.cons_anywhere ht (by simp [Token.endsAnywhere, h]),
      by simp [tokenText, attributeValueText, h]⟩
  · exact ⟨hts.openEnded.cons_name ht (.inl h) hts.ends, by simp [tokenText_of_ident h, attributeValueText, h]⟩

/-- An attribute that has been read, with its bracket. -/
theorem Attribute.WrittenBehind.isPart {a : Attribute} {us : List Value} (h : a.WrittenBehind us)
    (htype : a.opener.type = .openBracket) (hopener : a.opener.Writable)
    (hus : ∀ v ∈ us, v.AllTokens Token.Writable) :
    IsPart minify a.tokens (attributeText a) := by
  have hopenerReadable : a.opener.Readable := hopener (by simp [Token.isPlain, htype])
  have hopenerText : tokenText false a.opener = ['['] :=
    tokenText_of_type hopenerReadable (by decide) htype
  -- What is left is the part behind the bracket.
  suffices hbehind : ∃ ts, a.tokens = a.opener :: ts ∧ OpenEnded minify ts ∧
      '[' :: textOf ts = attributeText a by
    obtain ⟨ts, htokens, hopenEnded, htext⟩ := hbehind
    have hcons := hopenEnded.cons_anywhere hopenerReadable (by simp [Token.endsAnywhere, htype])
    rw [htokens]
    exact ⟨⟨hcons, by simp [EndsName, Token.endsName, htype]⟩,
      ⟨hcons, _, _, rfl, by simp [Token.opensCompound, htype]⟩, by simp [hopenerText, ← htext]⟩
  have hname {name : Token} (hident : name.type = .ident) (hmem : .token name ∈ us)
      {q : Option Qualifier} (hq : ∀ p ∈ q, p.Proper) (hyield : ∀ v ∈ qualifierYield q, v ∈ us)
      {ts : List Token} (hts : Follows minify ts) :
      OpenEnded minify (qualifierTokens q ++ name :: ts) ∧
        textOf (qualifierTokens q ++ name :: ts) =
          qualifierText q ++ escapeIdent name.text.toList ++ textOf ts := by
    have hreadable := readable_of_type hus hmem hident (by simp)
    have hisName : (Value.token name).isName = true := by simp [Value.isName, Value.hasType, hident]
    obtain ⟨hopens, hqualifier⟩ :=
      (Opens.of_isName hreadable hisName hts).qualifier hq (readable_qualifier hus hq hyield)
    exact ⟨hopens.openEnded, by simp [hqualifier, tokenText_of_ident hident]⟩
  cases h with
  | @plain opener name closer q before behind _ hq hident _ hcloser =>
      have hcloserReadable := readable_of_type (t := closer) hus (by simp) hcloser (by simp)
      obtain ⟨hend, hendText⟩ := Follows.modifier minify none (by simp) hcloserReadable hcloser
      obtain ⟨hopenEnded, htext⟩ := hname hident (by simp) hq (by simp +contextual) hend
      refine ⟨_, rfl, hopenEnded, (congrArg ('[' :: ·) htext).trans ?_⟩
      simp only [hendText]
      simp [attributeText]
  | @valued opener name value closer q m modifier before behind blanks blanks' blanks'' _ hq hident _ hm
      _ hvalue _ hmodifier _ hcloser =>
      have hcloserReadable := readable_of_type (t := closer) hus (by simp) hcloser (by simp)
      have hmodifierReadable : ∀ t ∈ modifier, t.Readable ∧ t.type = .ident ∧
          modifierWords.contains t.text = true := by
        intro t ht
        obtain ⟨htype, hwords⟩ := hmodifier t ht
        refine ⟨readable_of_type hus ?_ htype (by simp), htype, hwords⟩
        simp [Option.mem_def.mp ht]
      obtain ⟨hend, hendText⟩ := Follows.modifier minify modifier hmodifierReadable
        hcloserReadable hcloser
      have hvalueReadable : value.Readable := by
        rcases hvalue with h | h <;> exact readable_of_type hus (by simp) h (by simp)
      obtain ⟨hvalueOpenEnded, hvalueText⟩ := hend.attributeValue hvalueReadable hvalue
      obtain ⟨hmatcher, hmatcherText⟩ := hvalueOpenEnded.matcher hm
        (readable_matcher hus hm (by simp +contextual))
      obtain ⟨hopenEnded, htext⟩ := hname hident (by simp) hq (by simp +contextual) hmatcher
      refine ⟨_, by simp [Attribute.tokens], hopenEnded, (congrArg ('[' :: ·) htext).trans ?_⟩
      rw [textOf_append, hmatcherText, textOf_cons, hvalueText, hendText]
      simp [attributeText]

theorem isPart_attribute {a : Attribute} (h : ReadFrom Attribute.WrittenAs a) :
    IsPart minify a.tokens (attributeText a) := by
  obtain ⟨vs, h, hvs⟩ := h
  cases h with
  | flat htype hbehind =>
      obtain ⟨hopener, hbehindValues⟩ := List.forall_mem_cons.mp hvs
      cases hopener with
      | token hopener => exact hbehind.isPart htype hopener hbehindValues
  | @block contents us vs closer htype hbehind hsplit =>
      cases hvs _ (List.mem_singleton_self _) with
      | block hopener hcontents hcloser =>
          have hall : ∀ v ∈ contents ++ [.token closer], v.AllTokens Token.Writable :=
            List.forall_mem_append.mpr
              ⟨hcontents, List.forall_mem_singleton.mpr (.token (hcloser closer rfl))⟩
          rw [hsplit] at hall
          exact hbehind.isPart htype hopener.has (List.forall_mem_append.mp hall).1

/-! ## Pseudo-classes and pseudo-elements -/

/-- A colon before open-ended tokens. -/
theorem OpenEnded.colon {t : Token} {ts : List Token} (hts : OpenEnded minify ts) (ht : t.Readable)
    (htype : t.type = .colon) :
    IsPart minify (t :: ts) (':' :: textOf ts) := by
  have hcons := hts.cons_anywhere ht (by simp [Token.endsAnywhere, htype])
  have htext : tokenText false t = [':'] := tokenText_of_type ht (by decide) htype
  exact ⟨⟨hcons, by simp [EndsName, Token.endsName, htype]⟩,
    ⟨hcons, t, ts, rfl, by simp [Token.opensCompound, htype]⟩, by simp [htext]⟩

theorem readable_closeParenToken :
    closeParenToken.Readable :=
  .punctuation (c := ')') (by decide)

/-- A legible argument with its function and its parenthesis. -/
theorem openEnded_callTokens {p : PseudoClass} (hname : p.name.Writable) (h : p.Legible minify)
    {vs : List Value} (hvs : vs ∈ p.argument) :
    OpenEnded minify (callTokens minify p.name vs) ∧
      textOf (callTokens minify p.name vs) =
        escapeIdent p.name.text.toList ++ '(' :: valuesText minify vs ++ [')'] := by
  obtain ⟨htype, htext, hreadable, hjoined⟩ := h vs hvs
  constructor
  · have hfunction : ({ p.name with type := .function } : Token) = p.name := by rw [← htype]
    have hnameReadable : p.name.Readable := hname (by simp [Token.isPlain, htype])
    unfold callTokens at hjoined ⊢
    rw [hfunction, ← List.cons_append] at hjoined ⊢
    exact .enclosed (List.forall_mem_cons.mpr ⟨hnameReadable, hreadable⟩) readable_closeParenToken rfl
      hjoined
  · have hfunction : tokenText false { p.name with type := .function } =
        escapeIdent p.name.text.toList ++ ['('] := rfl
    have hcloser : tokenText false closeParenToken = [')'] := rfl
    rw [callTokens, textOf_cons, textOf_append, htext, hfunction, textOf_cons, hcloser]
    simp

theorem isPart_pseudoClass {p : PseudoClass} (h : ReadFrom PseudoClass.WrittenAs p)
    (hlegible : p.Legible minify) :
    IsPart minify (p.tokens minify) (pseudoText minify p) := by
  obtain ⟨us, h, hus⟩ := h
  have hcall {vs : List Value} (hvs : p.argument = some vs) (hname : p.name.Writable)
      (hcolon : p.colon.Readable) (htype : p.colon.type = .colon) :
      IsPart minify (p.tokens minify) (pseudoText minify p) := by
    obtain ⟨hopenEnded, htext⟩ := openEnded_callTokens hname hlegible hvs
    have hpart := hopenEnded.colon hcolon htype
    rw [htext] at hpart
    simpa [PseudoClass.tokens, pseudoText, hvs] using hpart
  cases h with
  | @plain colon name hcolon hname =>
      have hnameReadable : name.Readable := readable_of_type hus (by simp) hname (by simp)
      have hopenEnded : OpenEnded minify [name] := OpenEnded.nil.cons_name hnameReadable (.inl hname) rfl
      have htext : textOf [name] = escapeIdent name.text.toList := by simp [tokenText_of_ident hname]
      have hpart := hopenEnded.colon (readable_of_type hus (by simp) hcolon (by simp)) hcolon
      rw [htext] at hpart
      exact hpart
  | function hcolon =>
      have hname := readable_of_mem (t := _) hus (List.mem_cons_of_mem _ List.mem_cons_self)
      exact hcall rfl hname (readable_of_type hus (by simp) hcolon (by simp)) hcolon
  | call hcolon =>
      cases hus _ (List.mem_cons_of_mem _ List.mem_cons_self) with
      | call hname => exact hcall rfl hname (readable_of_type hus (by simp) hcolon (by simp)) hcolon

theorem legible_of_isPlain {p : PseudoClass} (h : p.isPlain minify = true) :
    p.Legible minify := by
  intro vs hvs
  simp only [PseudoClass.isPlain, Option.mem_def.mp hvs, Option.all_some, Bool.and_eq_true,
    beq_iff_eq, decide_eq_true_eq, List.all_eq_true, Bool.or_eq_true] at h
  obtain ⟨⟨⟨htype, htext⟩, hplain⟩, hjoined⟩ := h
  refine ⟨htype, htext, fun t ht => ?_, hjoined⟩
  rcases hplain t ht with hplain | hspace
  · exact readable_of_mem_tokenize t (List.mem_filter.mp ht).1 hplain
  · obtain ⟨type, text, position, detail⟩ := t
    cases hspace
    exact .space

theorem isPart_pseudoElement {p : PseudoElement} (h : ReadFrom PseudoElement.WrittenAs p)
    (hlegible : ∀ q ∈ p.element :: p.classes, q.Legible minify) :
    IsPart minify (p.tokens minify) (pseudoElementText minify p) := by
  obtain ⟨us, h, hus⟩ := h
  obtain ⟨hlegibleElement, hlegible⟩ := List.forall_mem_cons.mp hlegible
  cases h with
  | @intro us vs hcolon helement hclasses =>
      have hcolonReadable : p.colon.Readable := readable_of_type hus (by simp) hcolon (by simp)
      obtain ⟨hus, hvs⟩ := List.forall_mem_append.mp (List.forall_mem_cons.mp hus).2
      have helement := isPart_pseudoClass ⟨us, helement, hus⟩ hlegibleElement
      have hclass (q : PseudoClass) (hq : q ∈ p.classes) :=
        isPart_pseudoClass (forall_readFrom hclasses hvs q hq) (hlegible q hq)
      have hbehind := helement.follows.append (.flatMap fun q hq => (hclass q hq).follows)
      have hpart := hbehind.openEnded.colon hcolonReadable hcolon
      rwa [textOf_append, helement.text, textOf_flatMap fun q hq => (hclass q hq).text] at hpart

/-! ## Compounds -/

/-- The tokens stand for a reference to the parent: at the start of a compound, and behind its other
parts. -/
structure StandsFor (minify : Bool) (reference : Bool → List Token) (parent : List Char) : Prop where
  atStart : Opens minify (reference true)
  inside : IsPart minify (reference false) (nestingText false parent)
  text : textOf (reference true) = nestingText true parent

variable {reference : Bool → List Token} {parent : List Char}

theorem isPart_subclass {s : Subclass} (h : ReadFrom Subclass.WrittenAs s)
    (hlegible : ∀ p ∈ s.pseudoClasses, p.Legible minify)
    (hparent : StandsFor minify reference parent) :
    IsPart minify (s.tokens minify (reference false)) (subclassText minify parent false s) := by
  obtain ⟨us, h, hus⟩ := h
  cases h with
  | @id t hid =>
      have htype : t.type = .hash := by
        simp only [Token.isIdHash, Bool.and_eq_true, beq_iff_eq] at hid
        exact hid.1
      have ht : t.Readable := readable_of_mem hus (by simp) (by simp [Token.isPlain, htype, hid])
      have hopenEnded : OpenEnded minify [t] := OpenEnded.nil.cons_name ht (.inr htype) rfl
      exact ⟨⟨hopenEnded, by simp [EndsName, Subclass.tokens, Token.endsName, htype]⟩,
        ⟨hopenEnded, t, [], rfl, by simp [Token.opensCompound, htype]⟩,
        by simp [Subclass.tokens, subclassText, tokenText, htype, hid]⟩
  | @className dot ident hdot hident =>
      have hdotReadable : dot.Readable := readable_of_delim hus (by simp) hdot (by decide)
      have hidentReadable : ident.Readable := readable_of_type hus (by simp) hident (by simp)
      obtain ⟨hdelim, htext⟩ : dot.type = .delim ∧ dot.text = "." := by
        simpa [Token.isDelim] using hdot
      have hname : OpenEnded minify [ident] := OpenEnded.nil.cons_name hidentReadable (.inl hident) rfl
      have hopenEnded := hname.cons_point hdotReadable hdot hidentReadable hident
      have hdotText : tokenText false dot = ['.'] := tokenText_of_isDelim hdot
      exact ⟨⟨hopenEnded, by simp [EndsName, Subclass.tokens, Token.endsName, nameEnds, hdelim, htext]⟩,
        ⟨hopenEnded, dot, [ident], rfl, by simp [Token.opensCompound, hdelim, htext]⟩,
        by simp [Subclass.tokens, subclassText, hdotText, tokenText_of_ident hident]⟩
  | attr ha => exact isPart_attribute ⟨us, ha, hus⟩
  | pseudo hp => exact isPart_pseudoClass ⟨us, hp, hus⟩ (hlegible _ (List.mem_singleton_self _))
  | nesting => exact hparent.inside

/-- A condition at the start of a compound. -/
theorem opens_subclass {s : Subclass} (h : ReadFrom Subclass.WrittenAs s)
    (hlegible : ∀ p ∈ s.pseudoClasses, p.Legible minify)
    (hparent : StandsFor minify reference parent) (atStart : Bool) :
    Opens minify (s.tokens minify (reference atStart)) ∧
      textOf (s.tokens minify (reference atStart)) = subclassText minify parent atStart s := by
  have hpart := isPart_subclass h hlegible hparent
  cases s with
  | nesting =>
      cases atStart with
      | false => exact ⟨hpart.opens, hpart.text⟩
      | true => exact ⟨hparent.atStart, hparent.text⟩
  | _ => exact ⟨hpart.opens, hpart.text⟩

/-- Conditions behind a type selector. -/
theorem follows_conditions {conditions : List Subclass}
    (h : ∀ s ∈ conditions, ReadFrom Subclass.WrittenAs s)
    (hlegible : ∀ s ∈ conditions, ∀ p ∈ s.pseudoClasses, p.Legible minify)
    (hparent : StandsFor minify reference parent) :
    Follows minify (conditions.flatMap (Subclass.tokens minify (reference false))) ∧
      textOf (conditions.flatMap (Subclass.tokens minify (reference false))) =
        conditions.flatMap (subclassText minify parent false) := by
  have hpart (s : Subclass) (hs : s ∈ conditions) := isPart_subclass (h s hs) (hlegible s hs) hparent
  exact ⟨.flatMap fun s hs => (hpart s hs).follows, textOf_flatMap fun s hs => (hpart s hs).text⟩

/-- The conditions of a compound with a type selector before them. -/
theorem follows_conditionTokens {conditions : List Subclass}
    (h : ∀ s ∈ conditions, ReadFrom Subclass.WrittenAs s)
    (hlegible : ∀ s ∈ conditions, ∀ p ∈ s.pseudoClasses, p.Legible minify)
    (hparent : StandsFor minify reference parent) :
    Follows minify (conditionTokens minify reference false conditions) ∧
      textOf (conditionTokens minify reference false conditions) =
        conditions.flatMap (subclassText minify parent false) := by
  have heq : conditionTokens minify reference false conditions =
      conditions.flatMap (Subclass.tokens minify (reference false)) := by
    cases conditions <;> rfl
  rw [heq]
  exact follows_conditions h hlegible hparent

theorem opens_compound {c : Compound} (h : ReadFrom Compound.WrittenAs c)
    (hlegible : ∀ p ∈ c.pseudoClasses, p.Legible minify)
    (hparent : StandsFor minify reference parent) :
    Opens minify (c.tokens minify reference) ∧
      textOf (c.tokens minify reference) = compoundText minify parent c := by
  obtain ⟨ws, h, hws⟩ := h
  cases h with
  | @intro us vs htype hconditions hpseudos hnonempty =>
      obtain ⟨htypeValues, hws⟩ := List.forall_mem_append.mp hws
      obtain ⟨hus, hvs⟩ := List.forall_mem_append.mp hws
      obtain ⟨hlegibleConditions, hlegiblePseudos⟩ := List.forall_mem_append.mp hlegible
      rw [List.forall_mem_flatMap] at hlegibleConditions hlegiblePseudos
      have hpseudo (p : PseudoElement) (hp : p ∈ c.pseudos) :=
        isPart_pseudoElement (forall_readFrom hpseudos hvs p hp) (hlegiblePseudos p hp)
      have hbehind : Follows minify (c.pseudos.flatMap (PseudoElement.tokens minify)) :=
        .flatMap fun p hp => (hpseudo p hp).follows
      have hbehindText := textOf_flatMap fun p hp => (hpseudo p hp).text
      have hcondition := forall_readFrom hconditions hus
      obtain ⟨type, conditions, pseudos⟩ := c
      cases type with
      | some t =>
          obtain ⟨hfollows, htext⟩ := follows_conditionTokens hcondition hlegibleConditions hparent
          have hreadable := readable_typeSelector (htype t rfl) htypeValues
          obtain ⟨hopens, htypeText⟩ :=
            Opens.typeSelector (htype t rfl) hreadable (hfollows.append hbehind)
          refine ⟨hopens, ?_⟩
          have hjoined : textOf (t.tokens ++ (conditionTokens minify reference false conditions ++
              pseudos.flatMap (PseudoElement.tokens minify))) = typeText t ++
                (conditions.flatMap (subclassText minify parent false) ++
                  pseudos.flatMap (pseudoElementText minify)) := by
            rw [textOf_append, textOf_append, htypeText, htext, hbehindText]
          refine hjoined.trans ?_
          cases conditions <;> simp [compoundText]
      | none =>
          cases conditions with
          | cons s rest =>
              obtain ⟨hs, hrest⟩ := List.forall_mem_cons.mp hcondition
              obtain ⟨hlegible, hlegibleRest⟩ := List.forall_mem_cons.mp hlegibleConditions
              obtain ⟨hopens, htext⟩ := opens_subclass hs hlegible hparent true
              obtain ⟨hfollows, hrestText⟩ := follows_conditions hrest hlegibleRest hparent
              refine ⟨by simpa [Compound.tokens, conditionTokens] using
                hopens.append (hfollows.append hbehind), ?_⟩
              simp [Compound.tokens, conditionTokens, compoundText, htext, hrestText, hbehindText]
          | nil =>
              cases pseudos with
              | nil => cases hnonempty
              | cons p rest =>
                  obtain ⟨hp, hrest⟩ := List.forall_mem_cons.mp hpseudo
                  have hopens := hp.opens.append (.flatMap fun q hq => (hrest q hq).follows)
                  exact ⟨hopens, hbehindText⟩

/-! ## Complex selectors -/

/-- The signs of combinators that are single tokens. -/
def combinatorSigns : List String :=
  [">", "+", "~", "|"]

theorem isVisible_of_sign {t : Token} {s : String} (h : t.isDelim s = true) :
    t.isWhitespace = false := by
  simp [Token.isWhitespace, (Token.isDelim_iff.mp h).1]

/-- A sign before a compound. -/
theorem Opens.sign {t : Token} {ts : List Token} {s : String} (ht : t.Readable)
    (h : t.isDelim s = true) (hs : s ∈ combinatorSigns) (hts : Opens minify ts) :
    OpenEnded minify (t :: ts) := by
  obtain ⟨u, us, rfl, hu⟩ := hts.head
  by_cases hplus : s = "+"
  · subst hplus
    exact hts.openEnded.cons_plus ht h (hts.openEnded.readable u List.mem_cons_self) hu
  · refine hts.openEnded.cons_anywhere ht ?_
    obtain ⟨htype, htext⟩ : t.type = .delim ∧ t.text = s := by simpa [Token.isDelim] using h
    simp only [combinatorSigns, List.mem_cons, List.not_mem_nil, or_false, hplus, false_or] at hs
    rcases hs with rfl | rfl | rfl <;> simp [Token.endsAnywhere, htype, htext]

/-- A sign before the space before a compound. -/
theorem Opens.sign_space {t : Token} {ts : List Token} {s : String} (ht : t.Readable)
    (h : t.isDelim s = true) (hs : s ∈ combinatorSigns) (hts : Opens minify ts) :
    OpenEnded minify (t :: spaceToken :: ts) := by
  refine hts.space.openEnded.cons ht fun us _ _ _ => .inl ?_
  obtain ⟨htype, htext⟩ : t.type = .delim ∧ t.text = s := by simpa [Token.isDelim] using h
  have hspace : textOf (spaceToken :: ts ++ us) = ' ' :: textOf (ts ++ us) := rfl
  rw [hspace]
  simp only [combinatorSigns, List.mem_cons, List.not_mem_nil, or_false] at hs
  rcases hs with rfl | rfl | rfl | rfl <;>
    simp [Token.stopsBefore, htype, htext, delimStops, startsUnsigned, startsFraction, isDigit]

/-- A space before a sign. -/
theorem OpenEnded.space_sign {t : Token} {ts : List Token} {s : String} (h : t.isDelim s = true)
    (hts : OpenEnded minify (t :: ts)) :
    Follows minify (spaceToken :: t :: ts) :=
  ⟨hts.cons_space (hts.readable t List.mem_cons_self) (isVisible_of_sign h), rfl⟩

theorem endsName_sign {t : Token} {s : String} (h : t.isDelim s = true) (hs : s ∈ combinatorSigns) :
    t.endsName true = true := by
  obtain ⟨htype, htext⟩ : t.type = .delim ∧ t.text = s := by simpa [Token.isDelim] using h
  simp only [combinatorSigns, List.mem_cons, List.not_mem_nil, or_false] at hs
  rcases hs with rfl | rfl | rfl | rfl <;> simp [Token.endsName, nameEnds, htype, htext]

theorem signTokens_of_ne {p : SelectorPart} (h : p.combinator ≠ .descendant) :
    p.signTokens minify = if minify then p.tokens else spaceToken :: (p.tokens ++ [spaceToken]) := by
  unfold SelectorPart.signTokens
  split
  · contradiction
  · rfl

theorem combinatorText_of_ne {c : Combinator} (h : c ≠ .descendant) :
    combinatorText minify c = if minify then c.sign.toList else ' ' :: c.sign.toList ++ [' '] := by
  unfold combinatorText
  split
  · contradiction
  · rfl

/-- A compound with its combinator behind another compound. -/
theorem follows_selectorPart {p : SelectorPart} (h : ReadFrom SelectorPart.WrittenAs p)
    (hlegible : ∀ q ∈ p.compound.pseudoClasses, q.Legible minify)
    (hparent : StandsFor minify reference parent) :
    Follows minify (p.signTokens minify ++ p.compound.tokens minify reference) ∧
      textOf (p.signTokens minify ++ p.compound.tokens minify reference) =
        combinatorText minify p.combinator ++ compoundText minify parent p.compound := by
  obtain ⟨ws, h, hws⟩ := h
  cases h with
  | @intro us vs hcombinator hcompound =>
      obtain ⟨hus, hvs⟩ := List.forall_mem_append.mp hws
      obtain ⟨hopens, htext⟩ := opens_compound ⟨vs, hcompound, hvs⟩ hlegible hparent
      have hspace : tokenText false spaceToken = [' '] := rfl
      obtain ⟨combinator, tokens, compound⟩ := p
      rw [textOf_append, htext]
      dsimp only at hcombinator hopens ⊢
      cases hcombinator with
      | blank => exact ⟨hopens.space, rfl⟩
      | @sign _ t before behind hkind ht =>
          obtain ⟨hsign, hback, hne⟩ : combinator.sign ∈ combinatorSigns ∧ combinator.sign ≠ "\\" ∧
              combinator ≠ .descendant := by
            simp only [List.mem_cons, List.not_mem_nil, or_false] at hkind
            rcases hkind with rfl | rfl | rfl <;> decide
          have htReadable : t.Readable := readable_of_delim hus (by simp) ht hback
          have htText := tokenText_of_isDelim ht
          rw [signTokens_of_ne hne, combinatorText_of_ne hne]
          cases minify with
          | true =>
              have hends : EndsName true (t :: compound.tokens true reference) := endsName_sign ht hsign
              exact ⟨⟨hopens.sign htReadable ht hsign, hends⟩, by simp [htText]⟩
          | false =>
              exact ⟨(hopens.sign_space htReadable ht hsign).space_sign ht, by simp [htText, hspace]⟩
      | @column t u before behind ht hu =>
          have hbar : "|" ∈ combinatorSigns := by decide
          have htReadable : t.Readable := readable_of_delim hus (by simp) ht (by decide)
          have huReadable : u.Readable := readable_of_delim hus (by simp) hu (by decide)
          have htText := tokenText_of_isDelim ht
          have huText := tokenText_of_isDelim hu
          have hanywhere : t.endsAnywhere = true := by
            obtain ⟨htype, htext⟩ : t.type = .delim ∧ t.text = "|" := by simpa [Token.isDelim] using ht
            simp [Token.endsAnywhere, htype, htext]
          rw [signTokens_of_ne (p := ⟨.column, [t, u], compound⟩) Combinator.noConfusion,
            combinatorText_of_ne (by decide)]
          cases minify with
          | true =>
              have hbehind := (hopens.sign huReadable hu hbar).cons_anywhere htReadable hanywhere
              have hends : EndsName true (t :: u :: compound.tokens true reference) :=
                endsName_sign ht hbar
              exact ⟨⟨hbehind, hends⟩, by simp [htText, huText, Combinator.sign]⟩
          | false =>
              have hbehind := (hopens.sign_space huReadable hu hbar).cons_anywhere htReadable hanywhere
              exact ⟨hbehind.space_sign ht, by simp [htText, huText, hspace, Combinator.sign]⟩

/-- The text of a complex selector is that of open-ended tokens, which start as a compound does. -/
theorem opens_complexSelector {s : ComplexSelector} (h : ReadFrom ComplexSelector.WrittenAs s)
    (hlegible : s.Legible minify) (hparent : StandsFor minify reference parent) :
    Opens minify (s.tokens minify reference) ∧
      textOf (s.tokens minify reference) = complexText minify parent s := by
  obtain ⟨ws, h, hws⟩ := h
  cases h with
  | @intro first others us vs hfirst hothers =>
      obtain ⟨hus, hvs⟩ := List.forall_mem_append.mp hws
      obtain ⟨hlegibleFirst, hlegible⟩ := List.forall_mem_cons.mp (List.forall_mem_flatMap.mp hlegible)
      obtain ⟨hopens, htext⟩ := opens_compound ⟨us, hfirst, hus⟩ hlegibleFirst hparent
      have hpart (p : SelectorPart) (hp : p ∈ others) :=
        follows_selectorPart (forall_readFrom hothers hvs p hp) (hlegible p hp) hparent
      refine ⟨hopens.append (.flatMap fun p hp => (hpart p hp).1), ?_⟩
      rw [ComplexSelector.tokens, textOf_append, htext, complexText,
        textOf_flatMap fun p hp => (hpart p hp).2]

end Parts

end Cascade
