import Cascade.Proofs.ResolvedSelectors
import Cascade.Proofs.SelectorLists

/-!
# Written selectors are read back

The tokens that are read from a written selector list differ from those it was written
as in their places only.  They are parsed to the tree that was written, with the
arguments of pseudo-classes as they have been read back.

**Method.**  For every part of the grammar, tokens that are the same as those which a
tree is written as are the tokens of a tree which is the same up to places; the tree is
put together along the grammar (`exists_writtenAll` for lists of parts).

**Results.**
* `exists_complexSelector`: the tokens of a written selector are those of a selector.
* `Selector.parseText_selectorsText`: the text of a selector list is parsed.
-/

namespace Cascade
open Lexer Output

/-! ## Trees without places -/

/-- The value without its place, if it is a token. -/
def Value.unplaced : Value → Value
  | .token t => .token t.unplaced
  | v => v

/-- The qualifier without places. -/
def Qualifier.unplaced (q : Qualifier) : Qualifier :=
  ⟨q.name.map Token.unplaced, q.bar.unplaced⟩

/-- The type selector without places. -/
def TypeSelector.unplaced : TypeSelector → TypeSelector
  | .named q ident => .named (q.map Qualifier.unplaced) ident.unplaced
  | .universal q star => .universal (q.map Qualifier.unplaced) star.unplaced

/-- The matcher without places. -/
def Matcher.unplaced (m : Matcher) : Matcher :=
  ⟨m.sign.map Token.unplaced, m.equals.unplaced⟩

/-- The attribute selector without places. -/
def Attribute.unplaced (a : Attribute) : Attribute :=
  ⟨a.opener.unplaced, a.qualifier.map Qualifier.unplaced, a.name.unplaced,
    a.matcher.map Matcher.unplaced, a.value.map Token.unplaced, a.modifier.map Token.unplaced,
    a.closer.unplaced⟩

section Arguments

variable (f : List Value → List Value)

/-- The pseudo-class without places and with another argument, which a parenthesis closes. -/
def PseudoClass.unplaced (p : PseudoClass) : PseudoClass :=
  ⟨p.colon.unplaced, p.name.unplaced, p.argument.map f, p.closer.map fun _ => closeParenToken⟩

/-- The condition without places and with other arguments. -/
def Subclass.unplaced : Subclass → Subclass
  | .id t => .id t.unplaced
  | .className dot ident => .className dot.unplaced ident.unplaced
  | .attr a => .attr a.unplaced
  | .pseudo p => .pseudo (p.unplaced f)
  | .nesting ampersand => .nesting ampersand.unplaced

/-- The pseudo-element without places and with other arguments. -/
def PseudoElement.unplaced (e : PseudoElement) : PseudoElement :=
  ⟨e.colon.unplaced, e.element.unplaced f, e.classes.map (PseudoClass.unplaced f)⟩

/-- The compound without places and with other arguments. -/
def Compound.unplaced (c : Compound) : Compound :=
  ⟨c.type.map TypeSelector.unplaced, c.subclasses.map (Subclass.unplaced f),
    c.pseudos.map (PseudoElement.unplaced f)⟩

/-- The compound with its combinator, without places and with other arguments. -/
def SelectorPart.unplaced (p : SelectorPart) : SelectorPart :=
  ⟨p.combinator, p.tokens.map Token.unplaced, p.compound.unplaced f⟩

/-- The selector without places and with other arguments. -/
def ComplexSelector.unplaced (s : ComplexSelector) : ComplexSelector :=
  s.map (SelectorPart.unplaced f)

/-- The selectors without places and with other arguments. -/
def SelectorList.unplaced (list : SelectorList) : SelectorList :=
  list.map (ComplexSelector.unplaced f)

end Arguments

/-! ## Tokens that are the same but for their places -/

/-- The tokens differ in their places only. -/
def SameTokens (us ts : List Token) : Prop :=
  us.map Token.unplaced = ts.map Token.unplaced

section Same

variable {t u : Token} {ts ts' us : List Token}

theorem Token.type_of_unplaced (h : u.unplaced = t.unplaced) :
    u.type = t.type :=
  congrArg (·.type) h

theorem Token.text_of_unplaced (h : u.unplaced = t.unplaced) :
    u.text = t.text :=
  congrArg (·.text) h

theorem Token.isDelim_of_unplaced (h : u.unplaced = t.unplaced) (s : String) :
    u.isDelim s = t.isDelim s :=
  congrArg (·.isDelim s) h

namespace SameTokens

theorem nil (h : SameTokens us []) :
    us = [] :=
  List.map_eq_nil_iff.mp h

theorem cons (h : SameTokens us (t :: ts)) :
    ∃ u us', us = u :: us' ∧ u.unplaced = t.unplaced ∧ SameTokens us' ts := by
  obtain ⟨u, us', rfl, hu, hus'⟩ := List.map_eq_cons_iff.mp h
  exact ⟨u, us', rfl, hu, hus'⟩

theorem single (h : SameTokens us [t]) :
    ∃ u, us = [u] ∧ u.unplaced = t.unplaced := by
  obtain ⟨u, us', rfl, hu, hus'⟩ := h.cons
  exact ⟨u, by rw [hus'.nil], hu⟩

theorem append (h : SameTokens us (ts ++ ts')) :
    ∃ us₁ us₂, us = us₁ ++ us₂ ∧ SameTokens us₁ ts ∧ SameTokens us₂ ts' := by
  unfold SameTokens at h
  rw [List.map_append] at h
  obtain ⟨us₁, us₂, rfl, h₁, h₂⟩ := List.map_eq_append_iff.mp h
  exact ⟨us₁, us₂, rfl, h₁, h₂⟩

end SameTokens

end Same

/-- Tokens which are the same as those of trees are the tokens of trees which are the same. -/
theorem exists_writtenAll {α β : Type} {W : α → List Value → Prop} {tokens : α → List Token}
    {f g : α → β} {as : List α}
    (h : ∀ a ∈ as, ∀ us, SameTokens us (tokens a) → ∃ b, W b (us.map .token) ∧ f b = g a)
    {us : List Token} (hus : SameTokens us (as.flatMap tokens)) :
    ∃ bs, WrittenAll W bs (us.map .token) ∧ bs.map f = as.map g := by
  induction as generalizing us with
  | nil =>
      obtain rfl := hus.nil
      exact ⟨[], .nil, rfl⟩
  | cons a as ih =>
      obtain ⟨ha, has⟩ := List.forall_mem_cons.mp h
      obtain ⟨us₁, us₂, rfl, h₁, h₂⟩ := hus.append
      obtain ⟨b, hb, hfront⟩ := ha us₁ h₁
      obtain ⟨bs, hbs, hbehind⟩ := ih has h₂
      exact ⟨b :: bs, by rw [List.map_append]; exact .cons hb hbs, by simp [hfront, hbehind]⟩

/-! ## Type selectors and attributes -/

section Trees

variable {us : List Token}

theorem exists_qualifier {q : Option Qualifier} (hq : ∀ p ∈ q, p.Proper)
    (h : SameTokens us (qualifierTokens q)) :
    ∃ q', us.map .token = qualifierYield q' ∧ (∀ p ∈ q', p.Proper) ∧
      q'.map Qualifier.unplaced = q.map Qualifier.unplaced := by
  cases q with
  | none =>
      obtain rfl := h.nil
      exact ⟨none, rfl, by simp, rfl⟩
  | some q =>
      obtain ⟨hname, hbar⟩ := hq q rfl
      obtain ⟨name, bar⟩ := q
      cases name with
      | none =>
          obtain ⟨u, rfl, hu⟩ := h.single
          refine ⟨some ⟨none, u⟩, rfl, ?_, by simp [Qualifier.unplaced, hu]⟩
          rintro _ ⟨⟩
          exact ⟨by simp, (Token.isDelim_of_unplaced hu _).trans hbar⟩
      | some t =>
          obtain ⟨u, us, rfl, hu, h⟩ := h.cons
          obtain ⟨v, rfl, hv⟩ := h.single
          refine ⟨some ⟨some u, v⟩, rfl, ?_, by simp [Qualifier.unplaced, hu, hv]⟩
          have hsame := congrArg (fun t => (Value.token t).isName) hu
          have hisName : (Value.token u).isName = true := hsame.trans (hname t rfl)
          rintro _ ⟨⟩
          exact ⟨by simpa using hisName, (Token.isDelim_of_unplaced hv _).trans hbar⟩

theorem exists_typeSelector {t : TypeSelector} (ht : t.Proper) (h : SameTokens us t.tokens) :
    ∃ t' : TypeSelector, us.map .token = t'.yield ∧ t'.Proper ∧ t'.unplaced = t.unplaced := by
  cases t with
  | named q ident =>
      obtain ⟨us₁, us₂, rfl, h₁, h₂⟩ := h.append
      obtain ⟨q', hyield, hq', hsame⟩ := exists_qualifier ht.1 h₁
      obtain ⟨u, rfl, hu⟩ := h₂.single
      refine ⟨.named q' u, by simp [TypeSelector.yield, hyield], ?_,
        by simp [TypeSelector.unplaced, hsame, hu]⟩
      exact ⟨hq', (Token.type_of_unplaced hu).trans ht.2⟩
  | universal q star =>
      obtain ⟨us₁, us₂, rfl, h₁, h₂⟩ := h.append
      obtain ⟨q', hyield, hq', hsame⟩ := exists_qualifier ht.1 h₁
      obtain ⟨u, rfl, hu⟩ := h₂.single
      refine ⟨.universal q' u, by simp [TypeSelector.yield, hyield], ?_,
        by simp [TypeSelector.unplaced, hsame, hu]⟩
      exact ⟨hq', (Token.isDelim_of_unplaced hu _).trans ht.2⟩

theorem exists_matcher {m : Matcher} (hm : m.Proper) (h : SameTokens us m.tokens) :
    ∃ m' : Matcher, us.map .token = m'.yield ∧ m'.Proper ∧ m'.unplaced = m.unplaced := by
  obtain ⟨sign, equals⟩ := m
  obtain ⟨hsign, hequals⟩ := hm
  cases sign with
  | none =>
      obtain ⟨u, rfl, hu⟩ := h.single
      exact ⟨⟨none, u⟩, rfl, ⟨by simp, (Token.isDelim_of_unplaced hu _).trans hequals⟩,
        by simp [Matcher.unplaced, hu]⟩
  | some t =>
      obtain ⟨u, us, rfl, hu, h⟩ := h.cons
      obtain ⟨v, rfl, hv⟩ := h.single
      refine ⟨⟨some u, v⟩, rfl, ⟨?_, (Token.isDelim_of_unplaced hv _).trans hequals⟩,
        by simp [Matcher.unplaced, hu, hv]⟩
      rintro _ ⟨⟩
      rw [Token.type_of_unplaced hu, Token.text_of_unplaced hu]
      exact hsign t rfl

/-- A blank that may be missing, with a modifier behind it. -/
theorem exists_modifier {modifier : Option Token}
    (hmodifier : ∀ t ∈ modifier, t.type = .ident ∧ modifierWords.contains t.text = true)
    (h : SameTokens us ((modifier.map fun t => [spaceToken, t]).getD [])) :
    ∃ (blanks : List Value) (modifier' : Option Token),
      us.map .token = blanks ++ modifier'.toList.map .token ∧ AllBlank blanks ∧
      (∀ t ∈ modifier', t.type = .ident ∧ modifierWords.contains t.text = true) ∧
      modifier'.map Token.unplaced = modifier.map Token.unplaced := by
  cases modifier with
  | none =>
      obtain rfl := h.nil
      exact ⟨[], none, rfl, .nil, by simp, rfl⟩
  | some t =>
      obtain ⟨s, us, rfl, hs, h⟩ := h.cons
      obtain ⟨u, rfl, hu⟩ := h.single
      have hblank : (Value.token s).isWhitespace = true :=
        congrArg (fun t => (Value.token t).isWhitespace) hs
      refine ⟨[.token s], some u, rfl, List.forall_mem_singleton.mpr hblank, ?_, by simp [hu]⟩
      rintro _ ⟨⟩
      rw [Token.type_of_unplaced hu, Token.text_of_unplaced hu]
      exact hmodifier t rfl

theorem exists_attributeBehind {a : Attribute} {vs : List Value} (ha : a.WrittenBehind vs)
    {opener : Token} (hopener : opener.unplaced = a.opener.unplaced)
    (h : SameTokens (opener :: us) a.tokens) :
    ∃ a' : Attribute, a'.opener = opener ∧ a'.WrittenBehind (us.map .token) ∧
      a'.unplaced = a.unplaced := by
  obtain ⟨_, _, ⟨⟩, -, h⟩ := h.cons
  obtain ⟨us₁, _, rfl, h₁, h⟩ := h.append
  obtain ⟨name, _, rfl, hname, h⟩ := h.cons
  cases ha with
  | plain _ hq hident _ hcloser =>
      obtain ⟨q, hyield, hq, hsame⟩ := exists_qualifier hq h₁
      obtain ⟨closer, rfl, hc⟩ := h.single
      refine ⟨⟨opener, q, name, none, none, none, closer⟩, rfl, ?_, ?_⟩
      · have hall : Attribute.WrittenBehind ⟨opener, q, name, none, none, none, closer⟩ _ :=
          .plain .nil hq ((Token.type_of_unplaced hname).trans hident) .nil
            ((Token.type_of_unplaced hc).trans hcloser)
        simpa [hyield] using hall
      · simp [Attribute.unplaced, hopener, hsame, hname, hc]
  | valued _ hq hident _ hm _ hvalue _ hmodifier _ hcloser =>
      obtain ⟨q, hyield, hq, hsame⟩ := exists_qualifier hq h₁
      obtain ⟨us₂, _, rfl, h₂, h⟩ := h.append
      obtain ⟨m, hmYield, hm, hmSame⟩ := exists_matcher hm h₂
      obtain ⟨us₃, _, rfl, h₃, h⟩ := h.append
      obtain ⟨us₄, us₅, rfl, h₄, h₅⟩ := h.append
      obtain ⟨value, rfl, hv⟩ := h₃.single
      obtain ⟨blanks, modifier, hmodifierYield, hblanks, hmodifier, hmodifierSame⟩ :=
        exists_modifier hmodifier h₄
      obtain ⟨closer, rfl, hc⟩ := h₅.single
      refine ⟨⟨opener, q, name, some m, some value, modifier, closer⟩, rfl, ?_, ?_⟩
      · have hvalue : value.type = .string ∨ value.type = .ident := by
          rwa [Token.type_of_unplaced hv]
        have hall : Attribute.WrittenBehind ⟨opener, q, name, some m, some value, modifier, closer⟩ _ :=
          .valued .nil hq ((Token.type_of_unplaced hname).trans hident) .nil hm .nil hvalue hblanks
            hmodifier .nil ((Token.type_of_unplaced hc).trans hcloser)
        simpa [hyield, hmYield, hmodifierYield] using hall
      · simp [Attribute.unplaced, hopener, hsame, hname, hmSame, hv, hmodifierSame, hc]

theorem exists_attribute {a : Attribute} (ha : ReadFrom Attribute.WrittenAs a)
    (h : SameTokens us a.tokens) :
    ∃ a' : Attribute, a'.WrittenAs (us.map .token) ∧ a'.unplaced = a.unplaced := by
  obtain ⟨vs, ha, -⟩ := ha
  obtain ⟨opener, us, rfl, hopener, -⟩ := SameTokens.cons h
  have hbehind : ∃ vs, a.opener.type = .openBracket ∧ a.WrittenBehind vs := by
    cases ha with
    | flat htype hbehind => exact ⟨_, htype, hbehind⟩
    | block htype hbehind => exact ⟨_, htype, hbehind⟩
  obtain ⟨vs, htype, hbehind⟩ := hbehind
  obtain ⟨a', rfl, hwritten, hsame⟩ := exists_attributeBehind hbehind hopener h
  exact ⟨a', .flat ((Token.type_of_unplaced hopener).trans htype) hwritten, hsame⟩

/-! ## Pseudo-classes and pseudo-elements -/

theorem BalancedRun.of_sameTokens {ts : List Token} (h : BalancedRun (ts.map .token))
    (hus : SameTokens us ts) :
    BalancedRun (us.map .token) := by
  generalize hvs : ts.map Value.token = vs at h
  induction h generalizing ts us with
  | nil =>
      obtain rfl := List.map_eq_nil_iff.mp hvs
      obtain rfl := hus.nil
      exact .nil
  | inner hinner _ ih =>
      obtain ⟨t, ts, rfl, rfl, hts⟩ := List.map_eq_cons_iff.mp hvs
      obtain ⟨u, us, rfl, hu, hus⟩ := hus.cons
      refine .inner ?_ (ih hus hts)
      rintro _ ⟨⟩
      rw [Token.type_of_unplaced hu]
      exact hinner t rfl
  | group hpair _ _ ihInside ihBehind =>
      obtain ⟨t, ts, rfl, ht, hts⟩ := List.map_eq_cons_iff.mp hvs
      obtain ⟨ts₁, ts', rfl, h₁, h'⟩ := List.map_eq_append_iff.mp hts
      obtain ⟨t', ts₂, rfl, ht', h₂⟩ := List.map_eq_cons_iff.mp h'
      cases ht
      cases ht'
      obtain ⟨u, _, rfl, hu, hus⟩ := hus.cons
      obtain ⟨us₁, us', rfl, hus₁, hus'⟩ := hus.append
      obtain ⟨u', us₂, rfl, hu', hus₂⟩ := hus'.cons
      rw [List.map_cons, List.map_append, List.map_cons]
      refine .group ?_ (ihInside hus₁ h₁) (ihBehind hus₂ h₂)
      rw [Token.type_of_unplaced hu, Token.type_of_unplaced hu']
      exact hpair

/-- The argument as it is read back, without places. -/
def rereadArgument (minify : Bool) (vs : List Value) : List Value :=
  (writtenArgument minify vs).map fun t => .token t.unplaced

/-- The argument of a pseudo-class, if it has one, is read back up to its parenthesis. -/
def PseudoClass.Enclosed (minify : Bool) (p : PseudoClass) : Prop :=
  ∀ vs ∈ p.argument, p.name.type = .function ∧ BalancedRun ((writtenArgument minify vs).map .token)

variable {minify : Bool}

theorem exists_pseudoClass {p : PseudoClass} (hp : ReadFrom PseudoClass.WrittenAs p)
    (hargument : p.Enclosed minify) (h : SameTokens us (p.tokens minify)) :
    ∃ p' : PseudoClass, p'.WrittenAs (us.map .token) ∧
      p'.unplaced (List.map Value.unplaced) = p.unplaced (rereadArgument minify) := by
  obtain ⟨vs, hp, -⟩ := hp
  obtain ⟨colon, us, rfl, hcolon, h⟩ := SameTokens.cons h
  have hcall {vs : List Value} (hvs : p.argument = some vs) (hcloser : p.closer.isSome = true)
      (htype : p.colon.type = .colon) :
      ∃ p' : PseudoClass, p'.WrittenAs ((colon :: us).map .token) ∧
        p'.unplaced (List.map Value.unplaced) = p.unplaced (rereadArgument minify) := by
    obtain ⟨hfunction, hbalanced⟩ := hargument vs hvs
    rw [hvs, Option.map_some, Option.getD_some] at h
    obtain ⟨name, us, rfl, hname, h⟩ := SameTokens.cons h
    obtain ⟨us₁, us₂, rfl, h₁, h₂⟩ := h.append
    obtain ⟨closer, rfl, hc⟩ := h₂.single
    refine ⟨⟨colon, name, some (us₁.map .token), some closer⟩, ?_, ?_⟩
    · have hall := PseudoClass.WrittenAs.function ((Token.type_of_unplaced hcolon).trans htype)
        (Token.type_of_unplaced hname) (hbalanced.of_sameTokens h₁) (Token.type_of_unplaced hc)
      simpa using hall
    · obtain ⟨pcolon, pname, argument, pcloser⟩ := p
      obtain ⟨c, rfl⟩ := Option.isSome_iff_exists.mp hcloser
      obtain rfl : argument = some vs := hvs
      have hsameName : name.unplaced = pname.unplaced := by
        rw [hname]
        exact congrArg (fun type => Token.mk type pname.text Position.none pname.detail) hfunction.symm
      have hvalues := congrArg (List.map Value.token) h₁
      simpa [PseudoClass.unplaced, rereadArgument, hcolon, hsameName, Value.unplaced,
        Function.comp_def] using hvalues
  cases hp with
  | plain htype hident =>
      obtain ⟨name, rfl, hname⟩ := SameTokens.single h
      refine ⟨⟨colon, name, none, none⟩, .plain ((Token.type_of_unplaced hcolon).trans htype)
        ((Token.type_of_unplaced hname).trans hident), by simp [PseudoClass.unplaced, hcolon, hname]⟩
  | function htype => exact hcall rfl rfl htype
  | call htype => exact hcall rfl rfl htype

theorem exists_pseudoElement {e : PseudoElement} (he : ReadFrom PseudoElement.WrittenAs e)
    (harguments : ∀ p ∈ e.element :: e.classes, p.Enclosed minify)
    (h : SameTokens us (e.tokens minify)) :
    ∃ e' : PseudoElement, e'.WrittenAs (us.map .token) ∧
      e'.unplaced (List.map Value.unplaced) = e.unplaced (rereadArgument minify) := by
  obtain ⟨vs, he, hvs⟩ := he
  obtain ⟨hargument, harguments⟩ := List.forall_mem_cons.mp harguments
  cases he with
  | @intro vs₁ vs₂ htype helement hclasses =>
      obtain ⟨hvs₁, hvs₂⟩ := List.forall_mem_append.mp (List.forall_mem_cons.mp hvs).2
      have hclass := forall_readFrom hclasses hvs₂
      obtain ⟨colon, _, rfl, hcolon, h⟩ := SameTokens.cons h
      obtain ⟨us₁, us₂, rfl, h₁, h₂⟩ := h.append
      obtain ⟨element, hwritten, hsame⟩ := exists_pseudoClass ⟨_, helement, hvs₁⟩ hargument h₁
      obtain ⟨classes, hwrittenClasses, hsameClasses⟩ := exists_writtenAll
        (fun p hp us hus => exists_pseudoClass (hclass p hp) (harguments p hp) hus) h₂
      refine ⟨⟨colon, element, classes⟩, ?_, by simp [PseudoElement.unplaced, hcolon, hsame, hsameClasses]⟩
      rw [List.map_cons, List.map_append]
      exact .intro ((Token.type_of_unplaced hcolon).trans htype) hwritten hwrittenClasses

/-! ## Compounds -/

/-- An ampersand. -/
def ampersandToken : Token :=
  ⟨.delim, "&", Position.none, .none⟩

theorem Token.Readable.unplaced_of_isDelim {t : Token} (ht : t.Readable) {s : String}
    (h : t.isDelim s = true) :
    t.unplaced = ⟨.delim, s, Position.none, .none⟩ := by
  obtain ⟨htype, htext⟩ : t.type = .delim ∧ t.text = s := by simpa [Token.isDelim] using h
  cases ht with
  | delim => exact congrArg (fun text => Token.mk .delim text Position.none .none) htext
  | punctuation hmem =>
      have hall : ∀ e ∈ Output.punctuation, e.2 ≠ .delim := by decide
      exact absurd htype (hall _ hmem)
  | _ => cases htype

theorem exists_subclass {s : Subclass} (hs : ReadFrom Subclass.WrittenAs s)
    (harguments : ∀ p ∈ s.pseudoClasses, p.Enclosed minify)
    (h : SameTokens us (s.tokens minify [ampersandToken])) :
    ∃ s' : Subclass, s'.WrittenAs (us.map .token) ∧
      s'.unplaced (List.map Value.unplaced) = s.unplaced (rereadArgument minify) := by
  obtain ⟨vs, hs, hvs⟩ := hs
  cases hs with
  | id hid =>
      obtain ⟨u, rfl, hu⟩ := SameTokens.single h
      have hsame := congrArg Token.isIdHash hu
      exact ⟨.id u, .id (hsame.trans hid), by simp [Subclass.unplaced, hu]⟩
  | className hdot hident =>
      obtain ⟨u, _, rfl, hu, h⟩ := SameTokens.cons h
      obtain ⟨v, rfl, hv⟩ := h.single
      exact ⟨.className u v, .className ((Token.isDelim_of_unplaced hu _).trans hdot)
        ((Token.type_of_unplaced hv).trans hident), by simp [Subclass.unplaced, hu, hv]⟩
  | attr ha =>
      obtain ⟨a, hwritten, hsame⟩ := exists_attribute ⟨vs, ha, hvs⟩ h
      exact ⟨.attr a, .attr hwritten, congrArg Subclass.attr hsame⟩
  | pseudo hp =>
      obtain ⟨p, hwritten, hsame⟩ :=
        exists_pseudoClass ⟨vs, hp, hvs⟩ (harguments _ (List.mem_singleton_self _)) h
      exact ⟨.pseudo p, .pseudo hwritten, congrArg Subclass.pseudo hsame⟩
  | @nesting t ht =>
      obtain ⟨u, rfl, hu⟩ := SameTokens.single h
      have hdelim : u.isDelim "&" = true := Token.isDelim_of_unplaced hu "&"
      have htReadable : t.Readable := readable_of_delim hvs (List.mem_singleton_self _) ht (by decide)
      refine ⟨.nesting u, .nesting hdelim, ?_⟩
      rw [Subclass.unplaced, Subclass.unplaced, hu, htReadable.unplaced_of_isDelim ht]
      rfl

theorem conditionTokens_const (ref : List Token) (atStart : Bool) (conditions : List Subclass) :
    conditionTokens minify (fun _ => ref) atStart conditions =
      conditions.flatMap (Subclass.tokens minify ref) := by
  cases conditions <;> rfl

theorem isEmpty_unplaced (f : List Value → List Value) (c : Compound) :
    (c.unplaced f).isEmpty = c.isEmpty := by
  simp [Compound.isEmpty, Compound.unplaced]

theorem exists_compound {c : Compound} (hc : ReadFrom Compound.WrittenAs c)
    (harguments : ∀ p ∈ c.pseudoClasses, p.Enclosed minify)
    (h : SameTokens us (c.tokens minify fun _ => [ampersandToken])) :
    ∃ c' : Compound, c'.WrittenAs (us.map .token) ∧
      c'.unplaced (List.map Value.unplaced) = c.unplaced (rereadArgument minify) := by
  obtain ⟨vs, hc, hvs⟩ := hc
  cases hc with
  | @intro vs₁ vs₂ htype hconditions hpseudos hnonempty =>
      obtain ⟨-, hvs⟩ := List.forall_mem_append.mp hvs
      obtain ⟨hvs₁, hvs₂⟩ := List.forall_mem_append.mp hvs
      have hcondition := forall_readFrom hconditions hvs₁
      have hpseudo := forall_readFrom hpseudos hvs₂
      obtain ⟨hargumentsFront, hargumentsBehind⟩ := List.forall_mem_append.mp harguments
      rw [List.forall_mem_flatMap] at hargumentsFront hargumentsBehind
      obtain ⟨us₁, _, rfl, h₁, h⟩ := SameTokens.append h
      obtain ⟨us₂, us₃, rfl, h₂, h₃⟩ := h.append
      rw [conditionTokens_const] at h₂
      obtain ⟨conditions, hconditionsWritten, hconditionsSame⟩ := exists_writtenAll
        (fun s hs us hus => exists_subclass (hcondition s hs) (hargumentsFront s hs) hus) h₂
      obtain ⟨pseudos, hpseudosWritten, hpseudosSame⟩ := exists_writtenAll
        (fun e he us hus => exists_pseudoElement (hpseudo e he) (hargumentsBehind e he) hus) h₃
      obtain ⟨type, hyield, htype, htypeSame⟩ : ∃ type : Option TypeSelector,
          us₁.map .token = (type.map TypeSelector.yield).getD [] ∧ (∀ t ∈ type, t.Proper) ∧
            type.map TypeSelector.unplaced = c.type.map TypeSelector.unplaced := by
        cases hcase : c.type with
        | none =>
            rw [hcase] at h₁
            obtain rfl := SameTokens.nil h₁
            exact ⟨none, rfl, by simp, rfl⟩
        | some t =>
            rw [hcase] at h₁
            obtain ⟨t', hyield, ht', hsame⟩ := exists_typeSelector (htype t hcase) h₁
            exact ⟨some t', hyield, by simpa using ht', congrArg some hsame⟩
      have hsame : (⟨type, conditions, pseudos⟩ : Compound).unplaced (List.map Value.unplaced) =
          c.unplaced (rereadArgument minify) := by
        simp only [Compound.unplaced, htypeSame, hconditionsSame, hpseudosSame]
      refine ⟨⟨type, conditions, pseudos⟩, ?_, hsame⟩
      rw [List.map_append, List.map_append, hyield]
      refine .intro htype hconditionsWritten hpseudosWritten ?_
      rw [← isEmpty_unplaced (List.map Value.unplaced), hsame, isEmpty_unplaced]
      exact hnonempty

/-! ## Selectors -/

/-- The tokens that a selector list is written as. -/
def SelectorList.tokens (minify : Bool) (list : SelectorList) : List Token :=
  joinTokens minify (list.map (ComplexSelector.tokens minify fun _ => [ampersandToken]))

/-- A combinator is read back with its tokens. -/
theorem exists_combinator {p : SelectorPart} {vs : List Value}
    (hp : p.combinator.WrittenAs p.tokens vs) (h : SameTokens us (p.signTokens minify)) :
    ∃ tokens, p.combinator.WrittenAs tokens (us.map .token) ∧ SameTokens tokens p.tokens := by
  have hblank {s : Token} (hs : s.unplaced = spaceToken.unplaced) : AllBlank [.token s] :=
    List.forall_mem_singleton.mpr (congrArg (fun t => (Value.token t).isWhitespace) hs)
  obtain ⟨combinator, tokens, compound⟩ := p
  dsimp only at hp ⊢
  cases hp with
  | blank =>
      obtain ⟨s, rfl, hs⟩ := SameTokens.single h
      exact ⟨[], .blank (hblank hs) (List.cons_ne_nil _ _), rfl⟩
  | sign hkind ht =>
      have hne : combinator ≠ .descendant := by
        rintro rfl
        simp at hkind
      rw [signTokens_of_ne hne] at h
      cases minify with
      | true =>
          obtain ⟨u, rfl, hu⟩ := SameTokens.single h
          exact ⟨[u], .sign hkind ((Token.isDelim_of_unplaced hu _).trans ht) .nil .nil,
            congrArg (fun t => [t]) hu⟩
      | false =>
          obtain ⟨r, _, rfl, hr, h⟩ := SameTokens.cons h
          obtain ⟨u, _, rfl, hu, h⟩ := SameTokens.cons h
          obtain ⟨s, rfl, hs⟩ := SameTokens.single h
          exact ⟨[u], .sign hkind ((Token.isDelim_of_unplaced hu _).trans ht) (hblank hr) (hblank hs),
            congrArg (fun t => [t]) hu⟩
  | @column t₁ t₂ _ _ ht₁ ht₂ =>
      rw [signTokens_of_ne (p := ⟨.column, [t₁, t₂], compound⟩) Combinator.noConfusion] at h
      cases minify with
      | true =>
          obtain ⟨u₁, _, rfl, hu₁, h⟩ := SameTokens.cons h
          obtain ⟨u₂, rfl, hu₂⟩ := SameTokens.single h
          exact ⟨[u₁, u₂], .column ((Token.isDelim_of_unplaced hu₁ _).trans ht₁)
            ((Token.isDelim_of_unplaced hu₂ _).trans ht₂) .nil .nil, by simp [SameTokens, hu₁, hu₂]⟩
      | false =>
          obtain ⟨r, _, rfl, hr, h⟩ := SameTokens.cons h
          obtain ⟨u₁, _, rfl, hu₁, h⟩ := SameTokens.cons h
          obtain ⟨u₂, _, rfl, hu₂, h⟩ := SameTokens.cons h
          obtain ⟨s, rfl, hs⟩ := SameTokens.single h
          exact ⟨[u₁, u₂], .column ((Token.isDelim_of_unplaced hu₁ _).trans ht₁)
            ((Token.isDelim_of_unplaced hu₂ _).trans ht₂) (hblank hr) (hblank hs),
            by simp [SameTokens, hu₁, hu₂]⟩

theorem exists_selectorPart {p : SelectorPart} (hp : ReadFrom SelectorPart.WrittenAs p)
    (harguments : ∀ q ∈ p.compound.pseudoClasses, q.Enclosed minify)
    (h : SameTokens us (p.signTokens minify ++ p.compound.tokens minify fun _ => [ampersandToken])) :
    ∃ p' : SelectorPart, p'.WrittenAs (us.map .token) ∧
      p'.unplaced (List.map Value.unplaced) = p.unplaced (rereadArgument minify) := by
  obtain ⟨vs, hp, hvs⟩ := hp
  cases hp with
  | intro hcombinator hcompound =>
      obtain ⟨-, hvs⟩ := List.forall_mem_append.mp hvs
      obtain ⟨us₁, us₂, rfl, h₁, h₂⟩ := h.append
      obtain ⟨tokens, hsign, hsame⟩ := exists_combinator hcombinator h₁
      obtain ⟨compound, hwritten, hsameCompound⟩ :=
        exists_compound ⟨_, hcompound, hvs⟩ harguments h₂
      refine ⟨⟨p.combinator, tokens, compound⟩, ?_, ?_⟩
      · rw [List.map_append]
        exact .intro hsign hwritten
      · rw [SelectorPart.unplaced, SelectorPart.unplaced, hsameCompound, hsame]

/-- Tokens which are the same as those of a written selector are the tokens of a selector. -/
theorem exists_complexSelector {s : ComplexSelector} (hs : ReadFrom ComplexSelector.WrittenAs s)
    (harguments : ∀ p ∈ s.pseudoClasses, p.Enclosed minify)
    (h : SameTokens us (s.tokens minify fun _ => [ampersandToken])) :
    ∃ s' : ComplexSelector, s'.WrittenAs (us.map .token) ∧
      s'.unplaced (List.map Value.unplaced) = s.unplaced (rereadArgument minify) := by
  obtain ⟨vs, hs, hvs⟩ := hs
  cases hs with
  | @intro first others vs₁ vs₂ hfirst hothers =>
      obtain ⟨hvs₁, hvs₂⟩ := List.forall_mem_append.mp hvs
      obtain ⟨hargumentsFirst, harguments⟩ :=
        List.forall_mem_cons.mp (List.forall_mem_flatMap.mp harguments)
      have hother := forall_readFrom hothers hvs₂
      obtain ⟨us₁, us₂, rfl, h₁, h₂⟩ := SameTokens.append h
      obtain ⟨compound, hwritten, hsame⟩ := exists_compound ⟨_, hfirst, hvs₁⟩ hargumentsFirst h₁
      obtain ⟨parts, hpartsWritten, hpartsSame⟩ := exists_writtenAll
        (fun p hp us hus => exists_selectorPart (hother p hp) (harguments p hp) hus) h₂
      refine ⟨⟨.descendant, [], compound⟩ :: parts, ?_, ?_⟩
      · rw [List.map_append]
        exact .intro hwritten hpartsWritten
      · simp [ComplexSelector.unplaced, SelectorPart.unplaced, hsame, hpartsSame]

/-- Tokens which are the same as those of a written selector list are the tokens of a list. -/
theorem exists_selectorList {list : SelectorList} (hne : list ≠ [])
    (hlist : ∀ s ∈ list, ReadFrom ComplexSelector.WrittenAs s)
    (harguments : ∀ s ∈ list, ∀ p ∈ s.pseudoClasses, p.Enclosed minify)
    (h : SameTokens us (list.tokens minify)) {blanks : List Value} (hblanks : AllBlank blanks) :
    ∃ list' : SelectorList, list'.WrittenAs (blanks ++ us.map .token) ∧
      list'.unplaced (List.map Value.unplaced) = list.unplaced (rereadArgument minify) := by
  induction list generalizing us blanks with
  | nil => exact absurd rfl hne
  | cons s rest ih =>
      obtain ⟨hs, hrest⟩ := List.forall_mem_cons.mp hlist
      obtain ⟨hargument, hargumentsRest⟩ := List.forall_mem_cons.mp harguments
      cases rest with
      | nil =>
          rw [SelectorList.tokens, List.map_cons, List.map_nil, joinTokens,
            List.intercalate_singleton] at h
          obtain ⟨s', hwritten, hsame⟩ := exists_complexSelector hs hargument h
          refine ⟨[s'], ?_, by simp [SelectorList.unplaced, hsame]⟩
          have hall := SelectorList.WrittenAs.single hblanks hwritten .nil
          simpa using hall
      | cons next rest =>
          rw [SelectorList.tokens, List.map_cons, List.map_cons, joinTokens, List.intercalate_cons_cons,
            List.append_assoc] at h
          obtain ⟨us₁, _, rfl, h₁, h⟩ := h.append
          obtain ⟨us₂, us₃, rfl, h₂, h₃⟩ := h.append
          obtain ⟨s', hwritten, hsame⟩ := exists_complexSelector hs hargument h₁
          obtain ⟨comma, behind, rfl, hcomma, hbehind⟩ : ∃ comma behind, us₂ = comma :: behind ∧
              comma.type = .comma ∧ AllBlank (behind.map .token) := by
            cases minify with
            | true =>
                obtain ⟨comma, rfl, hcomma⟩ := SameTokens.single h₂
                exact ⟨comma, [], rfl, Token.type_of_unplaced hcomma, .nil⟩
            | false =>
                obtain ⟨comma, _, rfl, hcomma, h⟩ := SameTokens.cons h₂
                obtain ⟨space, rfl, hspace⟩ := SameTokens.single h
                exact ⟨comma, [space], rfl, Token.type_of_unplaced hcomma, List.forall_mem_singleton.mpr
                  (congrArg (fun t => (Value.token t).isWhitespace) hspace)⟩
          obtain ⟨list', hwrittenRest, hsameRest⟩ :=
            ih (List.cons_ne_nil _ _) hrest hargumentsRest h₃ hbehind
          refine ⟨s' :: list', ?_, ?_⟩
          · have hall := SelectorList.WrittenAs.cons hblanks hwritten .nil hcomma hwrittenRest
            simpa using hall
          · rw [SelectorList.unplaced, List.map_cons, hsame]
            exact congrArg _ hsameRest

end Trees

/-! ## Selector lists as texts -/

/-- No name that the selectors are written with consists of two hyphens, which with the sign for
children behind them are the end of a comment. -/
def SelectorList.HyphensApart (list : SelectorList) : Prop :=
  ∀ t ∈ list.tokens true, t.type = .ident → t.text ≠ "--"

/-- The text of a selector list. -/
def selectorsText (minify : Bool) (list : SelectorList) : String :=
  String.ofList (joinSelectors minify ((formatSelectors minify list).map String.toList))

section Texts

variable {minify : Bool}

theorem Near.joined {ts : List Token} (h : Near minify ts)
    (hname : minify = true → ∀ t ∈ ts, t.type = .ident → t.text ≠ "--") :
    Joined ts := by
  induction ts with
  | nil => trivial
  | cons t ts ih =>
      have hrest (hminify : minify = true) := (List.forall_mem_cons.mp (hname hminify)).2
      refine ⟨h.1.resolve_right ?_, ih h.2 hrest⟩
      rintro ⟨hminify, hpair⟩
      obtain ⟨u, -, hfuses⟩ := (Option.any_eq_true _ _).mp hpair
      obtain ⟨htype, htext, -⟩ := Token.fuses_eq hfuses
      exact hname hminify t List.mem_cons_self htype htext

/-- Ampersands stand for the references of a selector that is written by itself. -/
theorem standsFor_ampersand :
    StandsFor minify (fun _ => [ampersandToken]) ['&'] := by
  have hreadable : ampersandToken.Readable := .delim (c := '&') (by decide)
  have hopenEnded : OpenEnded minify [ampersandToken] :=
    OpenEnded.nil.cons_anywhere hreadable (by decide)
  have hopens : Opens minify [ampersandToken] := ⟨hopenEnded, _, _, rfl, by decide⟩
  exact ⟨hopens, ⟨⟨hopenEnded, by cases minify <;> rfl⟩, hopens, by decide⟩, by decide⟩

theorem opens_selectorList {list : SelectorList} (hne : list ≠ []) (h : ∀ s ∈ list, s.Clear minify) :
    Opens minify (list.tokens minify) ∧
      selectorsText minify list = String.ofList (textOf (list.tokens minify)) := by
  have hselector (s : ComplexSelector) (hs : s ∈ list) :
      Opens minify (s.tokens minify fun _ => [ampersandToken]) ∧ _ :=
    opens_complexSelector (h s hs).read (h s hs).legible standsFor_ampersand
  constructor
  · exact opens_joinTokens (by simpa using hne)
      (List.forall_mem_map.mpr fun s hs => (hselector s hs).1)
  · rw [selectorsText, SelectorList.tokens, textOf_joinTokens, formatSelectors, List.map_map,
      List.map_map]
    refine congrArg (fun texts => String.ofList (joinSelectors minify texts)) ?_
    refine List.map_congr_left fun s hs => ?_
    simpa using (hselector s hs).2.symm

/-- The text of a selector list is read back as the tokens that it was written as. -/
theorem sameTokens_selectorsText {list : SelectorList} (hne : list ≠ [])
    (h : ∀ s ∈ list, s.Clear minify) (hhyphens : minify = true → list.HyphensApart) :
    SameTokens (contents (selectorsText minify list)) (list.tokens minify) := by
  obtain ⟨hopens, htext⟩ := opens_selectorList hne h
  have hjoined : Joined (list.tokens minify) := by
    refine hopens.openEnded.near_self.joined ?_
    rintro rfl
    exact hhyphens rfl
  rw [htext]
  exact contents_unplaced (fun t ht => (hopens.openEnded.readable t ht).type_ne_eof)
    (tokenize_textOf hopens.openEnded.readable hjoined)

namespace Selector

/-- Selectors that have been read are made of tokens that can be read back. -/
theorem readFrom_of_parseText {source : String} {list : SelectorList}
    (h : parseText source = .ok list) :
    ∀ s ∈ list, ReadFrom ComplexSelector.WrittenAs s := by
  refine forall_readFrom_list (parse_eq_ok_iff.mp h) fun v hv => ?_
  obtain ⟨t, ht, rfl⟩ := List.mem_map.mp hv
  exact .token (readable_of_mem_tokenize t (List.mem_filter.mp ht).1)

/-- A written selector list is parsed to the tree that was written, with its arguments as they are
read back. -/
theorem parseText_selectorsText {list : SelectorList} (hne : list ≠ [])
    (h : ∀ s ∈ list, s.Clear minify)
    (hargument : ∀ s ∈ list, ∀ p ∈ s.pseudoClasses, p.Enclosed minify)
    (hhyphens : minify = true → list.HyphensApart) :
    ∃ list' : SelectorList, parseText (selectorsText minify list) = .ok list' ∧
      list'.unplaced (List.map Value.unplaced) = list.unplaced (rereadArgument minify) := by
  have htokens := sameTokens_selectorsText hne h hhyphens
  obtain ⟨list', hwritten, hsame⟩ := exists_selectorList hne (fun s hs => (h s hs).read) hargument
    htokens .nil
  rw [List.nil_append] at hwritten
  exact ⟨list', parse_eq_ok_iff.mpr hwritten, hsame⟩

end Selector

end Texts

end Cascade
