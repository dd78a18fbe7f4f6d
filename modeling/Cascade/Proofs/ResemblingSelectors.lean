import Cascade.Proofs.Resemblance

/-!
# Reading selectors does not depend on places

Preludes that differ in places only are parsed to selectors that differ in places only, and
these are written alike.

**Method.**  For every part of the grammar, values that resemble those which write a tree
write a tree which is the same up to places (`exists_*_resembling`); the tree is put together
along the grammar.

**Results.**
* `exists_selectorList_resembling`: a prelude that resembles one of selectors is one of selectors.
* `complexText_unplaced`: places are not written.
* `Selector.exists_parse_resembling`: both preludes are parsed to selectors with one text.
-/

namespace Cascade
open Output

/-! ## Cutting values that resemble each other -/

namespace Resemble

variable {us vs : List Value}

theorem allBlank (h : Resemble us vs) (hvs : AllBlank vs) :
    AllBlank us :=
  h.forall_of_bare (fun v => by rw [v.isWhitespace_bare]) hvs

theorem single {t : Token} (h : Resemble us [.token t]) :
    ∃ u, us = [.token u] ∧ u.unplaced = t.unplaced := by
  obtain ⟨u, us, rfl, hu, hus⟩ := h.token
  obtain rfl := hus.nil
  exact ⟨u, rfl, hu⟩

theorem block {opener closer : Token} {contents : List Value}
    (h : Resemble us [.block opener contents (some closer)]) :
    ∃ opener' contents' closer', us = [.block opener' contents' (some closer')] ∧
      opener'.unplaced = opener.unplaced ∧ Resemble contents' contents ∧
        closer'.unplaced = closer.unplaced := by
  obtain ⟨u, us, rfl, hu, hus⟩ := h.cons
  obtain rfl := hus.nil
  cases u with
  | token | call | reference => simp [Value.bare] at hu
  | block opener' contents' closer' =>
      rw [Value.bare, Value.bare, bareValues_eq_map, bareValues_eq_map] at hu
      obtain ⟨hopener, hcontents, hcloser⟩ := Value.block.inj hu
      cases closer' with
      | none => cases hcloser
      | some closer' =>
          exact ⟨opener', contents', closer', rfl, hopener, hcontents, Option.some.inj hcloser⟩

theorem call {name closer : Token} {args : List (List Value)} {commas : List Token}
    (h : Resemble us [.call name args commas (some closer)]) :
    ∃ name' args' commas' closer', us = [.call name' args' commas' (some closer')] ∧
      name'.unplaced = name.unplaced ∧
        args'.map (List.map Value.bare) = args.map (List.map Value.bare) ∧
          SameTokens commas' commas := by
  obtain ⟨u, us, rfl, hu, hus⟩ := h.cons
  obtain rfl := hus.nil
  cases u with
  | token | block | reference => simp [Value.bare] at hu
  | call name' args' commas' closer' =>
      rw [Value.bare, Value.bare, bareArguments_eq_map, bareArguments_eq_map] at hu
      obtain ⟨hname, hargs, hcommas, hcloser⟩ := Value.call.inj hu
      cases closer' with
      | none => cases hcloser
      | some closer' => exact ⟨name', args', commas', closer', rfl, hname, hargs, hcommas⟩

end Resemble

theorem map_bare_flattenArguments (args : List (List Value)) (commas : List Token) :
    (flattenArguments args commas).map Value.bare =
      flattenArguments (args.map (List.map Value.bare)) (commas.map Token.unplaced) := by
  induction args generalizing commas with
  | nil => rfl
  | cons arg args ih =>
      cases args with
      | nil => rfl
      | cons next args =>
          cases commas with
          | nil =>
              change (arg ++ flattenArguments (next :: args) []).map Value.bare = _
              rw [List.map_append, ih]
              rfl
          | cons comma commas =>
              change (arg ++ .token comma :: flattenArguments (next :: args) commas).map Value.bare = _
              rw [List.map_append, List.map_cons, ih, Value.bare]
              rfl

/-! ## Parts of a selector -/

section Parts

variable {us vs : List Value}

theorem exists_qualifier_resembling {q : Option Qualifier} (hq : ∀ p ∈ q, p.Proper)
    (h : Resemble us (qualifierYield q)) :
    ∃ q', us = qualifierYield q' ∧ (∀ p ∈ q', p.Proper) ∧
      q'.map Qualifier.unplaced = q.map Qualifier.unplaced := by
  rw [qualifierYield_eq] at h
  obtain ⟨us, rfl, hus⟩ := h.tokens
  exact exists_qualifier hq hus

theorem exists_typeSelector_resembling {t : TypeSelector} (ht : t.Proper) (h : Resemble us t.yield) :
    ∃ t' : TypeSelector, us = t'.yield ∧ t'.Proper ∧ t'.unplaced = t.unplaced := by
  have htokens : t.yield = t.tokens.map .token := by
    cases t <;> simp [TypeSelector.yield, TypeSelector.tokens, qualifierYield_eq]
  rw [htokens] at h
  obtain ⟨us, rfl, hus⟩ := h.tokens
  exact exists_typeSelector ht hus

theorem exists_attributeBehind_resembling {a : Attribute} (ha : a.WrittenBehind vs) {opener : Token}
    (hopener : opener.unplaced = a.opener.unplaced) (h : Resemble us vs) :
    ∃ a' : Attribute, a'.opener = opener ∧ a'.WrittenBehind us ∧ a'.unplaced = a.unplaced := by
  cases ha with
  | plain hbefore hq hname hbehind hcloser =>
      obtain ⟨before, _, rfl, h₁, h⟩ := h.append
      obtain ⟨qs, _, rfl, hqs, h⟩ := h.append
      obtain ⟨name, _, rfl, hn, h⟩ := h.token
      obtain ⟨behind, _, rfl, h₂, h⟩ := h.append
      obtain ⟨closer, rfl, hc⟩ := h.single
      obtain ⟨q, rfl, hq, hsame⟩ := exists_qualifier_resembling hq hqs
      refine ⟨⟨opener, q, name, none, none, none, closer⟩, rfl, ?_, ?_⟩
      · exact .plain (h₁.allBlank hbefore) hq ((Token.type_of_unplaced hn).trans hname)
          (h₂.allBlank hbehind) ((Token.type_of_unplaced hc).trans hcloser)
      · simp [Attribute.unplaced, hopener, hsame, hn, hc]
  | @valued _ _ _ _ _ _ modifier _ _ _ _ _ hbefore hq hname hbehind hm hblanks hvalue hblanks'
      hmodifier hblanks'' hcloser =>
      obtain ⟨before, _, rfl, h₁, h⟩ := h.append
      obtain ⟨qs, _, rfl, hqs, h⟩ := h.append
      obtain ⟨name, _, rfl, hn, h⟩ := h.token
      obtain ⟨behind, _, rfl, h₂, h⟩ := h.append
      obtain ⟨ms, _, rfl, hms, h⟩ := h.append
      obtain ⟨blanks, _, rfl, h₃, h⟩ := h.append
      obtain ⟨value, _, rfl, hv, h⟩ := h.token
      obtain ⟨blanks', _, rfl, h₄, h⟩ := h.append
      obtain ⟨words, _, rfl, hwords, h⟩ := h.append
      obtain ⟨blanks'', _, rfl, h₅, h⟩ := h.append
      obtain ⟨closer, rfl, hc⟩ := h.single
      obtain ⟨q, rfl, hq, hsame⟩ := exists_qualifier_resembling hq hqs
      obtain ⟨signs, rfl, hsigns⟩ := Resemble.tokens hms
      obtain ⟨m, hyield, hm, hmSame⟩ := exists_matcher hm hsigns
      obtain ⟨word, rfl, hword, hwordSame⟩ : ∃ word : Option Token,
          words = word.toList.map .token ∧
          (∀ t ∈ word, t.type = .ident ∧ modifierWords.contains t.text = true) ∧
            word.map Token.unplaced = modifier.map Token.unplaced := by
        cases modifier with
        | none =>
            obtain rfl := hwords.nil
            exact ⟨none, rfl, by simp, rfl⟩
        | some t =>
            obtain ⟨u, rfl, hu⟩ := hwords.single
            refine ⟨some u, rfl, ?_, by simp [hu]⟩
            rintro _ ⟨⟩
            rw [Token.type_of_unplaced hu, Token.text_of_unplaced hu]
            exact hmodifier t rfl
      rw [hyield]
      refine ⟨⟨opener, q, name, some m, some value, word, closer⟩, rfl, ?_, ?_⟩
      · have hvalue : value.type = .string ∨ value.type = .ident := by
          rwa [Token.type_of_unplaced hv]
        exact .valued (h₁.allBlank hbefore) hq ((Token.type_of_unplaced hn).trans hname)
          (h₂.allBlank hbehind) hm (h₃.allBlank hblanks) hvalue (h₄.allBlank hblanks') hword
          (h₅.allBlank hblanks'') ((Token.type_of_unplaced hc).trans hcloser)
      · simp [Attribute.unplaced, hopener, hsame, hn, hmSame, hv, hwordSame, hc]

theorem exists_attribute_resembling {a : Attribute} (ha : a.WrittenAs vs) (h : Resemble us vs) :
    ∃ a' : Attribute, a'.WrittenAs us ∧ a'.unplaced = a.unplaced := by
  cases ha with
  | flat htype hbehind =>
      obtain ⟨opener, us, rfl, hopener, hus⟩ := h.token
      obtain ⟨a', rfl, hwritten, hsame⟩ := exists_attributeBehind_resembling hbehind hopener hus
      exact ⟨a', .flat ((Token.type_of_unplaced hopener).trans htype) hwritten, hsame⟩
  | @block contents ws xs closer htype hbehind hsplit =>
      obtain ⟨opener, contents', closer', rfl, hopener, hcontents, hcloser⟩ := h.block
      have hall : Resemble (contents' ++ [.token closer']) (ws ++ xs) := by
        rw [← hsplit]
        unfold Resemble at hcontents ⊢
        rw [List.map_append, List.map_append, hcontents, List.map_singleton, List.map_singleton,
          Value.bare, Value.bare, hcloser]
      obtain ⟨ws', xs', hsplit', hws, -⟩ := hall.append
      obtain ⟨a', rfl, hwritten, hsame⟩ := exists_attributeBehind_resembling hbehind hopener hws
      exact ⟨a', .block ((Token.type_of_unplaced hopener).trans htype) hwritten hsplit', hsame⟩

theorem BalancedRun.of_resemble (h : BalancedRun vs) (hus : Resemble us vs) :
    BalancedRun us := by
  induction h generalizing us with
  | nil =>
      obtain rfl := hus.nil
      exact .nil
  | @inner v vs hinner _ ih =>
      obtain ⟨u, us, rfl, hu, hus⟩ := hus.cons
      refine .inner ?_ (ih hus)
      rintro t rfl
      cases v with
      | block | call | reference => simp [Value.bare] at hu
      | token t' =>
          rw [Value.bare, Value.bare] at hu
          rw [Token.type_of_unplaced (Value.token.inj hu)]
          exact hinner t' rfl
  | group hpair _ _ ihInside ihBehind =>
      obtain ⟨opener, _, rfl, hopener, hus⟩ := hus.token
      obtain ⟨inside, _, rfl, hinside, hus⟩ := hus.append
      obtain ⟨closer, behind, rfl, hcloser, hbehind⟩ := hus.token
      refine .group ?_ (ihInside hinside) (ihBehind hbehind)
      rw [Token.type_of_unplaced hopener, Token.type_of_unplaced hcloser]
      exact hpair

/-- The values of a list without places. -/
abbrev bareArgument : List Value → List Value :=
  List.map Value.bare

theorem exists_pseudoClass_resembling {p : PseudoClass} (hp : p.WrittenAs vs) (h : Resemble us vs) :
    ∃ p' : PseudoClass, p'.WrittenAs us ∧ p'.unplaced bareArgument = p.unplaced bareArgument := by
  cases hp with
  | plain hcolon hname =>
      obtain ⟨colon, us, rfl, hc, h⟩ := h.token
      obtain ⟨name, rfl, hn⟩ := h.single
      exact ⟨_, .plain ((Token.type_of_unplaced hc).trans hcolon)
        ((Token.type_of_unplaced hn).trans hname), by simp [PseudoClass.unplaced, hc, hn]⟩
  | function hcolon hname hargument hcloser =>
      obtain ⟨colon, us, rfl, hc, h⟩ := h.token
      obtain ⟨name, us, rfl, hn, h⟩ := h.token
      obtain ⟨argument, us, rfl, ha, h⟩ := h.append
      obtain ⟨closer, rfl, hp⟩ := h.single
      refine ⟨_, .function ((Token.type_of_unplaced hc).trans hcolon)
        ((Token.type_of_unplaced hn).trans hname) (hargument.of_resemble ha)
        ((Token.type_of_unplaced hp).trans hcloser), ?_⟩
      have hsame : argument.map Value.bare = _ := ha
      simp [PseudoClass.unplaced, hc, hn, hsame]
  | @call _ _ _ args commas hcolon =>
      obtain ⟨colon, us, rfl, hc, h⟩ := h.token
      obtain ⟨name, args', commas', closer, rfl, hn, hargs, hcommas⟩ := h.call
      refine ⟨_, .call ((Token.type_of_unplaced hc).trans hcolon), ?_⟩
      have hflat : (flattenArguments args' commas').map Value.bare =
          (flattenArguments args commas).map Value.bare := by
        rw [map_bare_flattenArguments, map_bare_flattenArguments, hargs, hcommas]
      simp [PseudoClass.unplaced, hc, hn, hflat]

theorem exists_subclass_resembling {s : Subclass} (hs : s.WrittenAs vs) (h : Resemble us vs) :
    ∃ s' : Subclass, s'.WrittenAs us ∧ s'.unplaced bareArgument = s.unplaced bareArgument := by
  cases hs with
  | @id t ht =>
      obtain ⟨u, rfl, hu⟩ := h.single
      have hhash : u.isIdHash = true := (congrArg Token.isIdHash hu).trans ht
      exact ⟨_, .id hhash, congrArg Subclass.id hu⟩
  | className hdot hident =>
      obtain ⟨dot, us, rfl, hd, h⟩ := h.token
      obtain ⟨ident, rfl, hi⟩ := h.single
      exact ⟨_, .className ((Token.isDelim_of_unplaced hd _).trans hdot)
        ((Token.type_of_unplaced hi).trans hident), by simp [Subclass.unplaced, hd, hi]⟩
  | attr ha =>
      obtain ⟨a, hwritten, hsame⟩ := exists_attribute_resembling ha h
      exact ⟨_, .attr hwritten, congrArg Subclass.attr hsame⟩
  | pseudo hp =>
      obtain ⟨p, hwritten, hsame⟩ := exists_pseudoClass_resembling hp h
      exact ⟨_, .pseudo hwritten, congrArg Subclass.pseudo hsame⟩
  | nesting ht =>
      obtain ⟨u, rfl, hu⟩ := h.single
      exact ⟨_, .nesting ((Token.isDelim_of_unplaced hu _).trans ht), congrArg Subclass.nesting hu⟩

/-- Values that resemble those of trees write trees that are the same. -/
theorem exists_writtenAll_resembling {α β : Type} {W : α → List Value → Prop} {f : α → β}
    (hW : ∀ {a vs us}, W a vs → Resemble us vs → ∃ b, W b us ∧ f b = f a) {as : List α}
    (h : WrittenAll W as vs) (hus : Resemble us vs) :
    ∃ bs, WrittenAll W bs us ∧ bs.map f = as.map f := by
  induction h generalizing us with
  | nil =>
      obtain rfl := hus.nil
      exact ⟨[], .nil, rfl⟩
  | cons ha _ ih =>
      obtain ⟨us₁, us₂, rfl, h₁, h₂⟩ := hus.append
      obtain ⟨b, hb, hfront⟩ := hW ha h₁
      obtain ⟨bs, hbs, hbehind⟩ := ih h₂
      exact ⟨b :: bs, .cons hb hbs, by rw [List.map_cons, List.map_cons, hfront, hbehind]⟩

theorem exists_pseudoElement_resembling {e : PseudoElement} (he : e.WrittenAs vs)
    (h : Resemble us vs) :
    ∃ e' : PseudoElement, e'.WrittenAs us ∧ e'.unplaced bareArgument = e.unplaced bareArgument := by
  cases he with
  | intro hcolon helement hclasses =>
      obtain ⟨colon, _, rfl, hc, h⟩ := h.token
      obtain ⟨us₁, us₂, rfl, h₁, h₂⟩ := h.append
      obtain ⟨element, helement, hsame⟩ := exists_pseudoClass_resembling helement h₁
      obtain ⟨classes, hclasses, hsames⟩ :=
        exists_writtenAll_resembling exists_pseudoClass_resembling hclasses h₂
      refine ⟨⟨colon, element, classes⟩,
        .intro ((Token.type_of_unplaced hc).trans hcolon) helement hclasses, ?_⟩
      simp only [PseudoElement.unplaced, hc, hsame, hsames]

theorem exists_compound_resembling {c : Compound} (hc : c.WrittenAs vs) (h : Resemble us vs) :
    ∃ c' : Compound, c'.WrittenAs us ∧ c'.unplaced bareArgument = c.unplaced bareArgument := by
  cases hc with
  | intro htype hconditions hpseudos hsome =>
      obtain ⟨front, _, rfl, hfront, h⟩ := h.append
      obtain ⟨us₁, us₂, rfl, h₁, h₂⟩ := h.append
      obtain ⟨conditions, hconditions, hsames⟩ :=
        exists_writtenAll_resembling exists_subclass_resembling hconditions h₁
      obtain ⟨pseudos, hpseudos, hsames'⟩ :=
        exists_writtenAll_resembling exists_pseudoElement_resembling hpseudos h₂
      obtain ⟨type, rfl, htype, htypeSame⟩ : ∃ type : Option TypeSelector,
          front = (type.map TypeSelector.yield).getD [] ∧ (∀ t ∈ type, t.Proper) ∧
            type.map TypeSelector.unplaced = c.type.map TypeSelector.unplaced := by
        generalize c.type = type at htype hfront
        cases type with
        | none =>
            obtain rfl := Resemble.nil hfront
            exact ⟨none, rfl, by simp, rfl⟩
        | some t =>
            obtain ⟨t', rfl, ht', hsame⟩ := exists_typeSelector_resembling (htype t rfl) hfront
            refine ⟨some t', rfl, ?_, by simp [hsame]⟩
            rintro _ ⟨⟩
            exact ht'
      have hsame : Compound.unplaced bareArgument ⟨type, conditions, pseudos⟩ =
          c.unplaced bareArgument := by
        simp only [Compound.unplaced, htypeSame, hsames, hsames']
      refine ⟨⟨type, conditions, pseudos⟩, .intro htype hconditions hpseudos ?_, hsame⟩
      rw [← isEmpty_unplaced bareArgument, hsame, isEmpty_unplaced]
      exact hsome

theorem exists_combinator_resembling {kind : Combinator} {tokens : List Token}
    (hkind : kind.WrittenAs tokens vs) (h : Resemble us vs) :
    ∃ tokens', kind.WrittenAs tokens' us ∧ SameTokens tokens' tokens := by
  cases hkind with
  | blank hblanks hne =>
      refine ⟨[], .blank (h.allBlank hblanks) ?_, rfl⟩
      rintro rfl
      exact hne (List.map_eq_nil_iff.mp (Eq.symm h))
  | sign hkind ht hbefore hbehind =>
      obtain ⟨before, _, rfl, h₁, h⟩ := h.append
      obtain ⟨u, behind, rfl, hu, h₂⟩ := h.token
      exact ⟨[u], .sign hkind ((Token.isDelim_of_unplaced hu _).trans ht) (h₁.allBlank hbefore)
        (h₂.allBlank hbehind), congrArg (fun t => [t]) hu⟩
  | column ht₁ ht₂ hbefore hbehind =>
      obtain ⟨before, _, rfl, h₁, h⟩ := h.append
      obtain ⟨u₁, _, rfl, hu₁, h⟩ := h.token
      obtain ⟨u₂, behind, rfl, hu₂, h₂⟩ := h.token
      exact ⟨[u₁, u₂], .column ((Token.isDelim_of_unplaced hu₁ _).trans ht₁)
        ((Token.isDelim_of_unplaced hu₂ _).trans ht₂) (h₁.allBlank hbefore) (h₂.allBlank hbehind),
        by simp [SameTokens, hu₁, hu₂]⟩

theorem exists_selectorPart_resembling {p : SelectorPart} (hp : p.WrittenAs vs) (h : Resemble us vs) :
    ∃ p' : SelectorPart, p'.WrittenAs us ∧ p'.unplaced bareArgument = p.unplaced bareArgument := by
  obtain ⟨kind, tokens, c⟩ := p
  cases hp with
  | intro hkind hc =>
      obtain ⟨us₁, us₂, rfl, h₁, h₂⟩ := h.append
      obtain ⟨tokens', hkind, htokens⟩ := exists_combinator_resembling hkind h₁
      obtain ⟨c', hc, hsame⟩ := exists_compound_resembling hc h₂
      have hwritten : SelectorPart.WrittenAs ⟨kind, tokens', c'⟩ (us₁ ++ us₂) := .intro hkind hc
      unfold SameTokens at htokens
      exact ⟨_, hwritten, by simp only [SelectorPart.unplaced, htokens, hsame]⟩

theorem exists_complexSelector_resembling {s : ComplexSelector} (hs : s.WrittenAs vs)
    (h : Resemble us vs) :
    ∃ s' : ComplexSelector, s'.WrittenAs us ∧
      s'.unplaced bareArgument = s.unplaced bareArgument := by
  cases hs with
  | intro hfirst hothers =>
      obtain ⟨us₁, us₂, rfl, h₁, h₂⟩ := h.append
      obtain ⟨first, hfirst, hsame⟩ := exists_compound_resembling hfirst h₁
      obtain ⟨others, hothers, hsames⟩ :=
        exists_writtenAll_resembling exists_selectorPart_resembling hothers h₂
      refine ⟨_, .intro hfirst hothers, ?_⟩
      simp only [ComplexSelector.unplaced, List.map_cons, SelectorPart.unplaced, hsame, List.map_nil]
      exact congrArg _ hsames

/-- A prelude that resembles one of selectors is one of selectors, which are the same. -/
theorem exists_selectorList_resembling {list : SelectorList} (h : list.WrittenAs vs)
    (hus : Resemble us vs) :
    ∃ list' : SelectorList, list'.WrittenAs us ∧
      list'.unplaced bareArgument = list.unplaced bareArgument := by
  induction h generalizing us with
  | single hbefore hs hbehind =>
      obtain ⟨before, _, rfl, h₁, h⟩ := hus.append
      obtain ⟨us, behind, rfl, h₂, h₃⟩ := h.append
      obtain ⟨s, hs, hsame⟩ := exists_complexSelector_resembling hs h₂
      refine ⟨[s], .single (h₁.allBlank hbefore) hs (h₃.allBlank hbehind), ?_⟩
      simp only [SelectorList.unplaced, List.map_cons, List.map_nil, hsame]
  | cons hbefore hs hbehind hcomma _ ih =>
      obtain ⟨before, _, rfl, h₁, h⟩ := hus.append
      obtain ⟨us, _, rfl, h₂, h⟩ := h.append
      obtain ⟨behind, _, rfl, h₃, h⟩ := h.append
      obtain ⟨comma, rest, rfl, hc, h₄⟩ := h.token
      obtain ⟨s, hs, hsame⟩ := exists_complexSelector_resembling hs h₂
      obtain ⟨list', hlist', hsames⟩ := ih h₄
      refine ⟨s :: list', .cons (h₁.allBlank hbefore) hs (h₃.allBlank hbehind)
        ((Token.type_of_unplaced hc).trans hcomma) hlist', ?_⟩
      simp only [SelectorList.unplaced, List.map_cons, hsame]
      exact congrArg _ hsames

end Parts

/-! ## Places are not written -/

section Written

variable (minify : Bool)

theorem qualifierText_unplaced (q : Option Qualifier) :
    qualifierText (q.map Qualifier.unplaced) = qualifierText q := by
  rcases q with _ | ⟨_ | t, bar⟩ <;> rfl

theorem attributeText_unplaced (a : Attribute) :
    attributeText a.unplaced = attributeText a := by
  obtain ⟨opener, q, name, m, value, modifier, closer⟩ := a
  unfold attributeText Attribute.unplaced
  dsimp only
  rw [qualifierText_unplaced]
  rcases m with _ | ⟨_ | sign, equals⟩ <;> cases value <;> cases modifier <;> rfl

theorem pseudoText_unplaced (p : PseudoClass) :
    pseudoText minify (p.unplaced bareArgument) = pseudoText minify p := by
  obtain ⟨colon, name, argument, closer⟩ := p
  cases argument with
  | none => rfl
  | some vs =>
      have htext : valuesText minify (vs.map Value.bare) = valuesText minify vs := by
        rw [← bareValues_eq_map]
        exact valuesAfter_bare minify none vs
      exact congrArg (fun cs => ':' :: escapeIdent name.text.toList ++ '(' :: cs ++ [')']) htext

theorem subclassText_unplaced (parent : List Char) (atStart : Bool) (s : Subclass) :
    subclassText minify parent atStart (s.unplaced bareArgument) =
      subclassText minify parent atStart s := by
  cases s with
  | id | className | nesting => rfl
  | attr a => exact attributeText_unplaced a
  | pseudo p => exact pseudoText_unplaced minify p

theorem pseudoElementText_unplaced (e : PseudoElement) :
    pseudoElementText minify (e.unplaced bareArgument) = pseudoElementText minify e := by
  simp [pseudoElementText, PseudoElement.unplaced, pseudoText_unplaced, List.flatMap_map]

theorem compoundText_unplaced (parent : List Char) (c : Compound) :
    compoundText minify parent (c.unplaced bareArgument) = compoundText minify parent c := by
  obtain ⟨type, conditions, pseudos⟩ := c
  have htype : ((type.map TypeSelector.unplaced).map typeText).getD [] =
      (type.map typeText).getD [] := by
    rcases type with _ | ⟨q, t⟩ | ⟨q, t⟩
    · rfl
    · exact congrArg (· ++ escapeIdent t.text.toList) (qualifierText_unplaced q)
    · exact congrArg (· ++ ['*']) (qualifierText_unplaced q)
  have hpseudos :
      (pseudos.map (PseudoElement.unplaced bareArgument)).flatMap (pseudoElementText minify) =
        pseudos.flatMap (pseudoElementText minify) := by
    rw [List.flatMap_map]
    exact List.flatMap_congr fun e _ => pseudoElementText_unplaced minify e
  have hrest (rest : List Subclass) : (rest.map (Subclass.unplaced bareArgument)).flatMap
      (subclassText minify parent false) = rest.flatMap (subclassText minify parent false) := by
    rw [List.flatMap_map]
    exact List.flatMap_congr fun s _ => subclassText_unplaced minify parent false s
  unfold compoundText Compound.unplaced
  dsimp only
  rw [htype, hpseudos]
  cases conditions with
  | nil => rfl
  | cons s rest =>
      simp only [List.map_cons, hrest, subclassText_unplaced, Option.isNone_map]

/-- Places are not written. -/
theorem complexText_unplaced (parent : List Char) (s : ComplexSelector) :
    complexText minify parent (ComplexSelector.unplaced bareArgument s) =
      complexText minify parent s := by
  cases s with
  | nil => rfl
  | cons first rest =>
      have hrest (p : SelectorPart) : combinatorText minify (p.unplaced bareArgument).combinator ++
          compoundText minify parent (p.unplaced bareArgument).compound =
            combinatorText minify p.combinator ++ compoundText minify parent p.compound :=
        congrArg (combinatorText minify p.combinator ++ ·)
          (compoundText_unplaced minify parent p.compound)
      change compoundText minify parent (first.compound.unplaced bareArgument) ++
        (rest.map (SelectorPart.unplaced bareArgument)).flatMap _ = _
      rw [compoundText_unplaced, List.flatMap_map, complexText]
      exact congrArg _ (List.flatMap_congr fun p _ => hrest p)

end Written

namespace Selector

/-- Preludes that resemble each other are parsed to selectors that are written alike. -/
theorem exists_parse_resembling {us vs : List Value} (h : Resemble us vs) {list : SelectorList}
    (hlist : parse vs = .ok list) :
    ∃ list', parse us = .ok list' ∧ ∀ minify parent,
      list'.map (complexText minify parent) = list.map (complexText minify parent) := by
  obtain ⟨list', hwritten, hsame⟩ := exists_selectorList_resembling (parse_eq_ok_iff.mp hlist) h
  refine ⟨list', parse_eq_ok_iff.mpr hwritten, fun minify parent => ?_⟩
  have htexts (l : SelectorList) :
      (SelectorList.unplaced bareArgument l).map (complexText minify parent) =
        l.map (complexText minify parent) := by
    rw [SelectorList.unplaced, List.map_map]
    exact List.map_congr_left fun s _ => complexText_unplaced minify parent s
  rw [← htexts list', hsame, htexts]

end Selector

end Cascade
