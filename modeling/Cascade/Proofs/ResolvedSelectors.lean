import Cascade.Proofs.SelectorTokens

/-!
# The tokens of resolved selectors

Resolving the selectors of a style rule puts the text of the rule around it for every
reference to the parent.  The text that comes out is that of the tokens which the two
selectors are written as, with the tokens of `:is(…)` or of `:scope` between them.  A
reference is left in them only if it stands in the argument of a pseudo-class.

**Method.**  `resolveTokens` does to tokens what `resolveSelectors` does to texts.  The
tokens of every resolved selector start as a compound does, which makes them stand for
a reference in the rules further inside (`standsFor_referenceTokens`); the result for
many rules is by induction over the rules from the outermost inwards.

**Results.**
* `resolveAll_eq`: the selectors that nested style rules give are the texts of open-ended tokens.
* `refers_resolveAll_iff`: a reference is left in one of them iff one stands in an argument.
-/

namespace Cascade
open Lexer Output

/-! ## References in tokens -/

/-- One of the tokens is a reference to the parent. -/
def Refers (ts : List Token) : Prop :=
  ∃ t ∈ ts, t.isDelim "&" = true

/-- The written argument holds a reference to the parent. -/
def PseudoClass.RefersInside (minify : Bool) (p : PseudoClass) : Prop :=
  ∃ vs ∈ p.argument, Refers (writtenArgument minify vs)

/-- The argument of a pseudo-class in the selector holds a reference to the parent. -/
def ComplexSelector.RefersInside (minify : Bool) (s : ComplexSelector) : Prop :=
  ∃ p ∈ s.pseudoClasses, p.RefersInside minify

theorem not_isDelim_of_type {t : Token} {type : TokenType} (h : t.type = type) (hne : type ≠ .delim)
    (s : String) :
    ¬ t.isDelim s = true := by
  simp [Token.isDelim, h, hne]

theorem not_isDelim_of_isDelim {t : Token} {r s : String} (h : t.isDelim r = true) (hne : r ≠ s) :
    ¬ t.isDelim s = true :=
  fun hs => hne ((Token.isDelim_iff.mp h).2.symm.trans (Token.isDelim_iff.mp hs).2)

namespace Refers

variable {t : Token} {ts us : List Token}

@[simp] theorem nil :
    ¬ Refers [] := by
  simp [Refers]

@[simp] theorem cons :
    Refers (t :: ts) ↔ t.isDelim "&" = true ∨ Refers ts := by
  simp [Refers]

@[simp] theorem append :
    Refers (ts ++ us) ↔ Refers ts ∨ Refers us := by
  simp [Refers, or_and_right, exists_or]

theorem flatMap {α : Type} {f : α → List Token} {as : List α} :
    Refers (as.flatMap f) ↔ ∃ a ∈ as, Refers (f a) := by
  simp only [Refers, List.mem_flatMap]
  grind

/-- Each part refers by itself, or where it stands for the parent. -/
theorem flatMap_iff {α : Type} {f : α → List Token} {as : List α} {P Q : α → Prop} {R : Prop}
    (h : ∀ a ∈ as, Refers (f a) ↔ P a ∨ Q a ∧ R) :
    Refers (as.flatMap f) ↔ (∃ a ∈ as, P a) ∨ (∃ a ∈ as, Q a) ∧ R := by
  rw [flatMap]
  grind

end Refers

/-! ## References in the parts of a selector -/

section Parts

variable {minify : Bool}

theorem not_refers_qualifier {q : Option Qualifier} (h : ∀ p ∈ q, p.Proper) :
    ¬ Refers (qualifierTokens q) := by
  cases q with
  | none => exact Refers.nil
  | some q =>
      obtain ⟨hname, hbar⟩ := h q rfl
      rintro ⟨t, ht, href⟩
      rcases List.mem_append.mp ht with ht | ht
      · have hisName := hname t (Option.mem_toList.mp ht)
        simp only [Value.isName, Value.hasType, Value.isDelim, Bool.or_eq_true, beq_iff_eq] at hisName
        rcases hisName with h | h
        · exact not_isDelim_of_type h (by decide) _ href
        · exact not_isDelim_of_isDelim h (by decide) href
      · obtain rfl := List.mem_singleton.mp ht
        exact not_isDelim_of_isDelim hbar (by decide) href

theorem not_refers_typeSelector {t : TypeSelector} (h : t.Proper) :
    ¬ Refers t.tokens := by
  cases t with
  | named q ident =>
      simp [TypeSelector.tokens, not_refers_qualifier h.1, Token.isDelim, h.2]
  | universal q star =>
      have hstar := not_isDelim_of_isDelim h.2 (s := "&") (by decide)
      simp [TypeSelector.tokens, not_refers_qualifier h.1, hstar]

theorem not_refers_matcher {m : Matcher} (h : m.Proper) :
    ¬ Refers m.tokens := by
  rintro ⟨t, ht, href⟩
  rcases List.mem_append.mp ht with ht | ht
  · have hsigns := (h.sign t (Option.mem_toList.mp ht)).2
    have hno : matcherSigns.contains "&" = false := by decide
    rw [(Token.isDelim_iff.mp href).2, hno] at hsigns
    cases hsigns
  · obtain rfl := List.mem_singleton.mp ht
    exact not_isDelim_of_isDelim h.equals (by decide) href

theorem not_refers_attributeBehind {a : Attribute} {us : List Value} (h : a.WrittenBehind us)
    (hopener : a.opener.type = .openBracket) :
    ¬ Refers a.tokens := by
  cases h with
  | plain _ hq hname _ hcloser =>
      dsimp only at hopener
      simp [Attribute.tokens, not_refers_qualifier hq, Token.isDelim, hname, hcloser, hopener]
  | @valued _ _ value _ _ _ modifier _ _ _ _ _ _ hq hname _ hm _ hvalue _ hmodifier _ hcloser =>
      dsimp only at hopener
      have hvalueDelim : value.isDelim "&" = false := by
        rcases hvalue with h | h <;> simp [Token.isDelim, h]
      have hmodifierDelim : ¬ Refers ((modifier.map fun t => [spaceToken, t]).getD []) := by
        cases modifier with
        | none => exact Refers.nil
        | some t => simp [spaceToken, Token.isDelim, (hmodifier t rfl).1]
      simp only [Attribute.tokens, Option.map_some, Option.getD_some, Option.toList_some, Refers.cons,
        Refers.append, Refers.nil, not_refers_qualifier hq, not_refers_matcher hm, hvalueDelim,
        hmodifierDelim, or_false, false_or]
      simp [Token.isDelim, hname, hcloser, hopener]

theorem not_refers_attribute {a : Attribute} {us : List Value} (h : a.WrittenAs us) :
    ¬ Refers a.tokens := by
  cases h with
  | flat hopener hbehind => exact not_refers_attributeBehind hbehind hopener
  | block hopener hbehind => exact not_refers_attributeBehind hbehind hopener

theorem refers_pseudoClass {p : PseudoClass} (h : ReadFrom PseudoClass.WrittenAs p) :
    Refers (p.tokens minify) ↔ p.RefersInside minify := by
  obtain ⟨us, h, -⟩ := h
  have hcall {vs : List Value} (hvs : p.argument = some vs) (hcolon : p.colon.type = .colon) :
      Refers (p.tokens minify) ↔ p.RefersInside minify := by
    simp [PseudoClass.tokens, PseudoClass.RefersInside, callTokens, closeParenToken, hvs,
      Token.isDelim, hcolon]
  cases h with
  | plain hcolon hname =>
      simp [PseudoClass.tokens, PseudoClass.RefersInside, Token.isDelim, hcolon, hname]
  | function hcolon => exact hcall rfl hcolon
  | call hcolon => exact hcall rfl hcolon

theorem refers_pseudoElement {p : PseudoElement} (h : ReadFrom PseudoElement.WrittenAs p) :
    Refers (p.tokens minify) ↔ ∃ q ∈ p.element :: p.classes, q.RefersInside minify := by
  obtain ⟨us, h, hus⟩ := h
  cases h with
  | intro hcolon helement hclasses =>
      obtain ⟨hus, hvs⟩ := List.forall_mem_append.mp (List.forall_mem_cons.mp hus).2
      have hclass := forall_readFrom hclasses hvs
      rw [PseudoElement.tokens, Refers.cons, Refers.append, refers_pseudoClass ⟨_, helement, hus⟩,
        Refers.flatMap, List.exists_mem_cons_iff,
        or_iff_right (not_isDelim_of_type hcolon (by decide) _)]
      exact or_congr_right (exists_congr fun q => and_congr_right fun hq => refers_pseudoClass (hclass q hq))

variable {reference : Bool → List Token} {R : Prop}

theorem refers_subclass {s : Subclass} (h : ReadFrom Subclass.WrittenAs s) {ref : List Token}
    (hR : Refers ref ↔ R) :
    Refers (s.tokens minify ref) ↔
      (∃ p ∈ s.pseudoClasses, p.RefersInside minify) ∨ s.isNesting = true ∧ R := by
  obtain ⟨us, h, hus⟩ := h
  cases h with
  | @id t hid =>
      simp only [Token.isIdHash, Bool.and_eq_true, beq_iff_eq] at hid
      simp [Subclass.tokens, Subclass.pseudoClasses, Subclass.isNesting, Token.isDelim, hid.1]
  | className hdot hident =>
      have hdot := not_isDelim_of_isDelim hdot (s := "&") (by decide)
      have hident := not_isDelim_of_type hident (by decide) "&"
      simp [Subclass.tokens, Subclass.pseudoClasses, Subclass.isNesting, hdot, hident]
  | attr ha =>
      simp [Subclass.tokens, Subclass.pseudoClasses, Subclass.isNesting, not_refers_attribute ha]
  | pseudo hp =>
      simp [Subclass.tokens, Subclass.pseudoClasses, Subclass.isNesting,
        refers_pseudoClass ⟨_, hp, hus⟩]
  | nesting => simpa [Subclass.tokens, Subclass.pseudoClasses, Subclass.isNesting] using hR

theorem refers_conditions {conditions : List Subclass} {atStart : Bool}
    (h : ∀ s ∈ conditions, ReadFrom Subclass.WrittenAs s)
    (hR : ∀ atStart, Refers (reference atStart) ↔ R) :
    Refers (conditionTokens minify reference atStart conditions) ↔
      (∃ s ∈ conditions, ∃ p ∈ s.pseudoClasses, p.RefersInside minify) ∨
        (∃ s ∈ conditions, s.isNesting = true) ∧ R := by
  cases conditions with
  | nil => simp [conditionTokens]
  | cons s rest =>
      obtain ⟨hs, hrest⟩ := List.forall_mem_cons.mp h
      rw [conditionTokens, Refers.append, refers_subclass hs (hR _),
        Refers.flatMap_iff fun t ht => refers_subclass (hrest t ht) (hR false),
        List.exists_mem_cons_iff, List.exists_mem_cons_iff, or_and_right]
      exact or_or_or_comm

theorem refers_compound {c : Compound} (h : ReadFrom Compound.WrittenAs c)
    (hR : ∀ atStart, Refers (reference atStart) ↔ R) :
    Refers (c.tokens minify reference) ↔ (∃ p ∈ c.pseudoClasses, p.RefersInside minify) ∨
      c.subclasses.any Subclass.isNesting = true ∧ R := by
  obtain ⟨ws, h, hws⟩ := h
  cases h with
  | @intro us vs htype hconditions hpseudos _ =>
      obtain ⟨-, hws⟩ := List.forall_mem_append.mp hws
      obtain ⟨hus, hvs⟩ := List.forall_mem_append.mp hws
      have hpseudo := forall_readFrom hpseudos hvs
      have htypeTokens : ¬ Refers ((c.type.map TypeSelector.tokens).getD []) := by
        cases hc : c.type with
        | none => exact Refers.nil
        | some t => exact not_refers_typeSelector (htype t hc)
      have helements : Refers (c.pseudos.flatMap (PseudoElement.tokens minify)) ↔
          ∃ e ∈ c.pseudos, ∃ p ∈ e.element :: e.classes, p.RefersInside minify := by
        rw [Refers.flatMap]
        exact exists_congr fun e => and_congr_right fun he => refers_pseudoElement (hpseudo e he)
      rw [Compound.tokens, Refers.append, or_iff_right htypeTokens, Refers.append, helements,
        refers_conditions (forall_readFrom hconditions hus) hR, or_right_comm, List.any_eq_true]
      simp only [Compound.pseudoClasses, List.mem_append, List.mem_flatMap, or_and_right, exists_or]
      grind

theorem not_refers_signTokens {p : SelectorPart} {us : List Value}
    (h : p.combinator.WrittenAs p.tokens us) :
    ¬ Refers (p.signTokens minify) := by
  have hspace : spaceToken.isDelim "&" = false := rfl
  have htokens : ¬ Refers p.tokens := by
    generalize p.combinator = kind at h
    generalize p.tokens = tokens at h
    cases h with
    | blank => exact Refers.nil
    | sign hkind ht =>
        have hsign : kind.sign ≠ "&" := by
          cases kind <;> decide
        simpa using not_isDelim_of_isDelim ht hsign
    | column ht hu =>
        have ht := not_isDelim_of_isDelim ht (s := "&") (by decide)
        have hu := not_isDelim_of_isDelim hu (s := "&") (by decide)
        simp [ht, hu]
  unfold SelectorPart.signTokens
  split
  · simp [hspace]
  · split <;> simp [hspace, htokens]

theorem refers_selectorPart {p : SelectorPart} (h : ReadFrom SelectorPart.WrittenAs p)
    (hR : ∀ atStart, Refers (reference atStart) ↔ R) :
    Refers (p.signTokens minify ++ p.compound.tokens minify reference) ↔
      (∃ q ∈ p.compound.pseudoClasses, q.RefersInside minify) ∨
        p.compound.subclasses.any Subclass.isNesting = true ∧ R := by
  obtain ⟨ws, h, hws⟩ := h
  cases h with
  | @intro us vs hcombinator hcompound =>
      obtain ⟨-, hvs⟩ := List.forall_mem_append.mp hws
      rw [Refers.append, refers_compound ⟨vs, hcompound, hvs⟩ hR,
        or_iff_right (not_refers_signTokens hcombinator)]

/-- The tokens of a selector refer to the parent iff an argument does, or what stands for the parent. -/
theorem refers_complexSelector {s : ComplexSelector} (h : ReadFrom ComplexSelector.WrittenAs s)
    (hR : ∀ atStart, Refers (reference atStart) ↔ R) :
    Refers (s.tokens minify reference) ↔ s.RefersInside minify ∨ s.hasNesting = true ∧ R := by
  obtain ⟨ws, h, hws⟩ := h
  cases h with
  | @intro first others us vs hfirst hothers =>
      obtain ⟨hus, hvs⟩ := List.forall_mem_append.mp hws
      have hpart := forall_readFrom hothers hvs
      rw [ComplexSelector.tokens, Refers.append, refers_compound ⟨us, hfirst, hus⟩ hR,
        Refers.flatMap_iff fun p hp => refers_selectorPart (hpart p hp) hR, or_or_or_comm,
        ← or_and_right]
      refine or_congr ?_ (and_congr_left' ?_)
      · simp [ComplexSelector.RefersInside, ComplexSelector.pseudoClasses, or_and_right, exists_or]
        grind
      · simp [ComplexSelector.hasNesting]

end Parts

/-! ## What stands for a reference -/

/-- A single colon. -/
def colonToken : Token :=
  ⟨.colon, ":", Position.none, .none⟩

/-- A single comma. -/
def commaToken : Token :=
  ⟨.comma, ",", Position.none, .none⟩

/-- The tokens of `:scope`. -/
def scopeTokens : List Token :=
  [colonToken, ⟨.ident, "scope", Position.none, .none⟩]

/-- The tokens with `:is(…)` around them. -/
def listTokens (ts : List Token) : List Token :=
  colonToken :: ⟨.function, "is", Position.none, .none⟩ :: (ts ++ [closeParenToken])

/-- The tokens of several selectors with commas between them. -/
def joinTokens (minify : Bool) (selectors : List (List Token)) : List Token :=
  (if minify then [commaToken] else [commaToken, spaceToken]).intercalate selectors

/-- The tokens of a parent that is given by its selectors. -/
def parentTokens (minify : Bool) : List (List Token) → List Token
  | [parent] => parent
  | parents => listTokens (joinTokens minify parents)

/-- The tokens that stand for a reference to a parent: the parent itself, if its text does. -/
def referenceTokens (parent : List Token) (atStart : Bool) : List Token :=
  if nestingText atStart (textOf parent) = textOf parent then parent else listTokens parent

section Parents

variable {minify : Bool} {ts us : List Token}

theorem readable_colonToken :
    colonToken.Readable :=
  .punctuation (c := ':') (by decide)

theorem readable_commaToken :
    commaToken.Readable :=
  .punctuation (c := ',') (by decide)

theorem opens_scopeTokens (minify : Bool) :
    Opens minify scopeTokens ∧ textOf scopeTokens = ":scope".toList := by
  have hname : (⟨.ident, "scope", Position.none, .none⟩ : Token).Readable :=
    .ident (s := "scope".toList) (by simp [NullFree]) (by decide)
  have hbehind : OpenEnded minify [_] := OpenEnded.nil.cons_name hname (.inl rfl) rfl
  exact ⟨(hbehind.colon readable_colonToken rfl).opens, by decide⟩

/-- Open-ended tokens inside of `:is(…)`. -/
theorem isPart_listTokens (h : OpenEnded minify ts) :
    IsPart minify (listTokens ts) (":is(".toList ++ textOf ts ++ [')']) := by
  have hname : (⟨.function, "is", Position.none, .none⟩ : Token).Readable :=
    .function (s := "is".toList) (by simp [NullFree]) (by decide)
  have hcloser : OpenEnded minify [closeParenToken] :=
    OpenEnded.nil.cons_anywhere readable_closeParenToken rfl
  have hbehind := (h.append hcloser rfl).cons hname fun _ _ _ _ => .inl rfl
  have hpart := hbehind.colon readable_colonToken rfl
  have htext : ':' :: textOf (⟨.function, "is", Position.none, .none⟩ :: (ts ++ [closeParenToken])) =
      ":is(".toList ++ textOf ts ++ [')'] := by
    have hfront : tokenText false ⟨.function, "is", Position.none, .none⟩ = ['i', 's', '('] := by decide
    have hback : tokenText false closeParenToken = [')'] := rfl
    rw [textOf_cons, textOf_append, hfront, textOf_cons, hback]
    rfl
  rwa [htext] at hpart

/-- Tokens whose text starts with such a sign end a name. -/
theorem Opens.ends {c : Char} {cs : List Char} (h : Opens minify ts) (htext : textOf ts = c :: cs)
    (hc : c ∈ ['.', '#', '[', ':', '&']) :
    EndsName minify ts := by
  obtain ⟨t, us, rfl, ht⟩ := h.head
  have hno : t.type ≠ .ident := by
    intro hident
    have hstart := startsName_of_ident (h.openEnded.readable t List.mem_cons_self) hident (textOf us)
    rw [← textOf_cons, htext] at hstart
    have hall : ['.', '#', '[', ':', '&'].all
        (fun d => !isNameStart d && d != '-' && d != '\\') = true := by decide
    obtain ⟨⟨hname, hhyphen⟩, hback⟩ : (isNameStart c = false ∧ c ≠ '-') ∧ c ≠ '\\' := by
      simpa using List.all_eq_true.mp hall c hc
    rw [startsName_cons _ hhyphen hback, hname] at hstart
    cases hstart
  unfold Token.opensCompound at ht
  simp only [EndsName, List.head?_cons, Option.all_some, Token.endsName]
  split at ht
  case h_5 hdelim =>
    simp only [List.contains_eq_mem, List.mem_cons, List.not_mem_nil, or_false, decide_eq_true_eq]
      at ht
    rcases ht with ht | ht | ht | ht <;> simp [hdelim, ht, nameEnds]
  all_goals simp_all

theorem nestingText_eq (atStart : Bool) (parent : List Char) :
    nestingText atStart parent = parent ∨
      nestingText atStart parent = ":is(".toList ++ parent ++ [')'] := by
  unfold nestingText
  dsimp only
  split
  · exact .inl rfl
  · exact .inr rfl

/-- Where a parent stands for itself inside of a compound, its text starts with a sign. -/
theorem exists_sign_of_nestingText {parent : List Char} (h : nestingText false parent = parent) :
    ∃ c cs, parent = c :: cs ∧ c ∈ ['.', '#', '[', ':', '&'] := by
  unfold nestingText at h
  dsimp only at h
  split at h
  · next hself =>
      cases parent with
      | nil => simp at hself
      | cons c cs =>
        refine ⟨c, cs, rfl, ?_⟩
        simp only [Bool.false_or, Bool.or_eq_true, beq_iff_eq, List.cons.injEq, Bool.and_eq_true,
          List.head?_cons, Option.any_some] at hself
        simp only [List.mem_cons, List.not_mem_nil, or_false]
        tauto
  · have hlength := congrArg List.length h
    simp only [List.length_append, List.length_singleton] at hlength
    omega

/-- The tokens of a parent stand for a reference to it. -/
theorem standsFor_referenceTokens (h : Opens minify ts) :
    StandsFor minify (referenceTokens ts) (textOf ts) := by
  have hstart : referenceTokens ts true = ts := if_pos (by simp [nestingText])
  refine ⟨hstart.symm ▸ h, ?_, by rw [hstart]; simp [nestingText]⟩
  unfold referenceTokens
  split
  · next hself =>
      obtain ⟨c, cs, htext, hc⟩ := exists_sign_of_nestingText hself
      exact ⟨⟨h.openEnded, h.ends htext hc⟩, h, hself.symm⟩
  · next hlist =>
      rw [(nestingText_eq false (textOf ts)).resolve_left hlist]
      exact isPart_listTokens h.openEnded

theorem refers_listTokens :
    Refers (listTokens ts) ↔ Refers ts := by
  simp [listTokens, colonToken, closeParenToken, Token.isDelim]

theorem refers_referenceTokens (atStart : Bool) :
    Refers (referenceTokens ts atStart) ↔ Refers ts := by
  unfold referenceTokens
  split
  · rfl
  · exact refers_listTokens

/-! ## Several selectors -/

/-- Every selector starts as a compound does. -/
abbrev AllOpen (minify : Bool) (selectors : List (List Token)) : Prop :=
  ∀ ts ∈ selectors, Opens minify ts

/-- Selectors with commas between them start as a compound does. -/
theorem opens_joinTokens {selectors : List (List Token)} (hne : selectors ≠ [])
    (h : AllOpen minify selectors) :
    Opens minify (joinTokens minify selectors) := by
  induction selectors with
  | nil => exact absurd rfl hne
  | cons ts rest ih =>
      obtain ⟨hts, hrest⟩ := List.forall_mem_cons.mp h
      cases rest with
      | nil => simpa [joinTokens] using hts
      | cons us rest =>
          have hbehind := ih (List.cons_ne_nil _ _) hrest
          unfold joinTokens at hbehind ⊢
          rw [List.intercalate_cons_cons, List.append_assoc]
          refine hts.append ?_
          cases minify with
          | true =>
              exact ⟨hbehind.openEnded.cons_anywhere readable_commaToken rfl, rfl⟩
          | false =>
              exact ⟨hbehind.space.openEnded.cons_anywhere readable_commaToken rfl, rfl⟩

theorem textOf_joinTokens (selectors : List (List Token)) :
    textOf (joinTokens minify selectors) = joinSelectors minify (selectors.map textOf) := by
  have hsep : textOf (if minify then [commaToken] else [commaToken, spaceToken]) =
      if minify then [','] else [',', ' '] := by
    cases minify <;> decide
  induction selectors with
  | nil => rfl
  | cons ts rest ih =>
      cases rest with
      | nil => simp [joinTokens, joinSelectors]
      | cons us rest =>
          unfold joinTokens joinSelectors at ih ⊢
          rw [List.intercalate_cons_cons, textOf_append, textOf_append, hsep, ih]
          exact List.intercalate_cons_cons.symm

theorem refers_joinTokens (selectors : List (List Token)) :
    Refers (joinTokens minify selectors) ↔ ∃ ts ∈ selectors, Refers ts := by
  have hsep : ¬ Refers (if minify then [commaToken] else [commaToken, spaceToken]) := by
    cases minify <;> simp [commaToken, spaceToken, Token.isDelim]
  induction selectors with
  | nil => simp [joinTokens]
  | cons ts rest ih =>
      cases rest with
      | nil => simp [joinTokens]
      | cons us rest =>
          unfold joinTokens at ih ⊢
          rw [List.intercalate_cons_cons, List.append_assoc, Refers.append, Refers.append,
            or_iff_right hsep, List.exists_mem_cons_iff]
          exact or_congr_right ih

/-- The parent that is given by its selectors. -/
theorem opens_parentTokens {parents : List (List Token)} (hne : parents ≠ [])
    (h : AllOpen minify parents) :
    Opens minify (parentTokens minify parents) ∧
      textOf (parentTokens minify parents) = parentText minify (parents.map textOf) ∧
      (Refers (parentTokens minify parents) ↔ ∃ ts ∈ parents, Refers ts) := by
  have hjoined := isPart_listTokens (opens_joinTokens hne h).openEnded
  rcases parents with _ | ⟨ts, _ | ⟨us, rest⟩⟩
  · exact absurd rfl hne
  · exact ⟨h ts (List.mem_singleton_self ts), rfl, by simp [parentTokens]⟩
  · refine ⟨hjoined.opens, ?_, refers_listTokens.trans (refers_joinTokens _)⟩
    exact hjoined.text.trans (by rw [textOf_joinTokens]; rfl)

end Parents

/-! ## Resolving selectors -/

/-- The tokens of a selector inside a rule with the given selectors. -/
def resolveOne (minify : Bool) (parents : List (List Token)) (s : ComplexSelector) :
    List (List Token) :=
  if parents.isEmpty then [s.tokens minify (referenceTokens scopeTokens)]
  else if s.hasNesting then [s.tokens minify (referenceTokens (parentTokens minify parents))]
  else parents.map fun parent => parent ++ spaceToken :: s.tokens minify (referenceTokens scopeTokens)

/-- The tokens of the selectors of a rule inside a rule with the given ones. -/
def resolveTokens (minify : Bool) (parents : List (List Token)) (list : SelectorList) :
    List (List Token) :=
  list.flatMap (resolveOne minify parents)

/-- The tokens of the selectors that rules inside each other give, from the outermost inwards. -/
def resolveAll (minify : Bool) (nest : List SelectorList) : List (List Token) :=
  nest.foldl (resolveTokens minify) []

section Resolving

variable {minify : Bool} {parents : List (List Token)}

theorem subclassText_congr {s : Subclass} (h : s.isNesting = false) (p q : List Char)
    (atStart : Bool) :
    subclassText minify p atStart s = subclassText minify q atStart s := by
  cases s with
  | nesting => cases h
  | _ => rfl

theorem compoundText_congr {c : Compound} (h : c.subclasses.any Subclass.isNesting = false)
    (p q : List Char) :
    compoundText minify p c = compoundText minify q c := by
  obtain ⟨type, conditions, pseudos⟩ := c
  cases conditions with
  | nil => rfl
  | cons s rest =>
      simp only [List.any_cons, Bool.or_eq_false_iff, List.any_eq_false] at h
      have hrest : rest.flatMap (subclassText minify p false) = rest.flatMap (subclassText minify q false) :=
        List.flatMap_congr fun t ht => subclassText_congr (Bool.eq_false_iff.mpr (h.2 t ht)) p q false
      simp only [compoundText, subclassText_congr h.1 p q, hrest]

/-- A selector without references is written the same for all parents. -/
theorem complexText_congr {s : ComplexSelector} (h : s.hasNesting = false) (p q : List Char) :
    complexText minify p s = complexText minify q s := by
  cases s with
  | nil => rfl
  | cons first rest =>
      simp only [ComplexSelector.hasNesting, List.any_cons, Bool.or_eq_false_iff] at h
      rw [complexText, complexText, compoundText_congr h.1 p q]
      refine congrArg _ (List.flatMap_congr fun part hpart => ?_)
      have hno := List.any_eq_false.mp h.2 part hpart
      rw [compoundText_congr (Bool.eq_false_iff.mpr hno) p q]

/-- The selector was read, and its arguments are legible. -/
structure ComplexSelector.Clear (minify : Bool) (s : ComplexSelector) : Prop where
  read : ReadFrom ComplexSelector.WrittenAs s
  legible : s.Legible minify

/-- The texts of a selector inside a rule are those of tokens that start as a compound does. -/
theorem resolveOne_spec {s : ComplexSelector} (h : s.Clear minify) (hparents : AllOpen minify parents) :
    AllOpen minify (resolveOne minify parents s) ∧
      resolveSelectors minify (parents.map textOf) [s] = (resolveOne minify parents s).map textOf := by
  obtain ⟨hscope, hscopeText⟩ := opens_scopeTokens minify
  have htop := opens_complexSelector h.read h.legible (standsFor_referenceTokens hscope)
  rw [hscopeText] at htop
  cases hempty : parents.isEmpty with
  | true =>
      obtain rfl := List.isEmpty_iff.mp hempty
      exact ⟨List.forall_mem_singleton.mpr htop.1, by simp [resolveSelectors, resolveOne, htop.2]⟩
  | false =>
      have hne : parents ≠ [] := List.isEmpty_eq_false_iff.mp hempty
      cases hnesting : s.hasNesting with
      | true =>
          obtain ⟨hparent, hparentText, -⟩ := opens_parentTokens hne hparents
          have hinside := opens_complexSelector h.read h.legible (standsFor_referenceTokens hparent)
          rw [hparentText] at hinside
          simp only [resolveOne, resolveSelectors, List.flatMap_singleton, List.isEmpty_map, hempty,
            hnesting, Bool.false_eq_true, if_false, if_true, List.map_singleton, hinside.2, and_true]
          exact List.forall_mem_singleton.mpr hinside.1
      | false =>
          have htext := htop.2.trans (complexText_congr hnesting _ [])
          simp only [resolveOne, resolveSelectors, List.flatMap_singleton, List.isEmpty_map, hempty,
            hnesting, Bool.false_eq_true, if_false, List.map_map]
          refine ⟨List.forall_mem_map.mpr fun p hp => (hparents p hp).append htop.1.space, ?_⟩
          refine List.map_congr_left fun p hp => ?_
          simp only [Function.comp_apply, textOf_append, textOf_cons, htext]
          rfl

theorem refers_resolveOne {s : ComplexSelector} (h : s.Clear minify) (hparents : AllOpen minify parents) :
    (∃ ts ∈ resolveOne minify parents s, Refers ts) ↔
      s.RefersInside minify ∨ ∃ ts ∈ parents, Refers ts := by
  have hscope : ¬ Refers scopeTokens := by
    simp [scopeTokens, colonToken, Token.isDelim]
  have htop : Refers (s.tokens minify (referenceTokens scopeTokens)) ↔ s.RefersInside minify := by
    rw [refers_complexSelector h.read refers_referenceTokens, or_iff_left]
    exact fun hno => hscope hno.2
  cases hempty : parents.isEmpty with
  | true =>
      obtain rfl := List.isEmpty_iff.mp hempty
      simp [resolveOne, htop]
  | false =>
      have hne : parents ≠ [] := List.isEmpty_eq_false_iff.mp hempty
      cases hnesting : s.hasNesting with
      | true =>
          obtain ⟨-, -, hparent⟩ := opens_parentTokens hne hparents
          have hinside : Refers (s.tokens minify (referenceTokens (parentTokens minify parents))) ↔ _ :=
            refers_complexSelector h.read refers_referenceTokens
          simp [resolveOne, hempty, hnesting, hinside, hparent]
      | false =>
          obtain ⟨p, hp⟩ := List.exists_mem_of_ne_nil _ hne
          have hspace : spaceToken.isDelim "&" = false := rfl
          simp [resolveOne, hempty, hnesting, htop, hspace]
          grind

theorem resolveSelectors_cons (parents : List (List Char)) (s : ComplexSelector)
    (list : SelectorList) :
    resolveSelectors minify parents (s :: list) =
      resolveSelectors minify parents [s] ++ resolveSelectors minify parents list := by
  rw [resolveSelectors, List.flatMap_cons, resolveSelectors, resolveSelectors, List.flatMap_singleton]

theorem resolveTokens_spec {list : SelectorList} (h : ∀ s ∈ list, s.Clear minify)
    (hparents : AllOpen minify parents) :
    AllOpen minify (resolveTokens minify parents list) ∧
      resolveSelectors minify (parents.map textOf) list =
        (resolveTokens minify parents list).map textOf := by
  induction list with
  | nil => exact ⟨List.forall_mem_nil _, rfl⟩
  | cons s rest ih =>
      obtain ⟨hs, hrest⟩ := List.forall_mem_cons.mp h
      obtain ⟨hopen, htext⟩ := resolveOne_spec hs hparents
      obtain ⟨hopenRest, htextRest⟩ := ih hrest
      unfold resolveTokens at hopenRest htextRest ⊢
      rw [List.flatMap_cons]
      refine ⟨List.forall_mem_append.mpr ⟨hopen, hopenRest⟩, ?_⟩
      rw [resolveSelectors_cons, htext, htextRest, List.map_append]

theorem refers_resolveTokens {list : SelectorList} (hne : list ≠ []) (h : ∀ s ∈ list, s.Clear minify)
    (hparents : AllOpen minify parents) :
    (∃ ts ∈ resolveTokens minify parents list, Refers ts) ↔
      (∃ ts ∈ parents, Refers ts) ∨ ∃ s ∈ list, s.RefersInside minify := by
  obtain ⟨first, hfirst⟩ := List.exists_mem_of_ne_nil _ hne
  have hone (s : ComplexSelector) (hs : s ∈ list) := refers_resolveOne (h s hs) hparents
  simp only [resolveTokens, List.mem_flatMap]
  grind

/-- The selectors that rules inside each other give are the texts of tokens that start as a compound
does. -/
theorem resolveAll_eq {nest : List SelectorList} (h : ∀ list ∈ nest, ∀ s ∈ list, s.Clear minify) :
    AllOpen minify (resolveAll minify nest) ∧
      nest.foldl (resolveSelectors minify) [] = (resolveAll minify nest).map textOf := by
  induction nest using List.reverseRecOn with
  | nil => exact ⟨List.forall_mem_nil _, rfl⟩
  | append_singleton nest list ih =>
      obtain ⟨hnest, hlist⟩ := List.forall_mem_append.mp h
      obtain ⟨hopen, htext⟩ := ih hnest
      obtain ⟨hresolved, hresolvedText⟩ :=
        resolveTokens_spec (hlist list (List.mem_singleton_self list)) hopen
      unfold resolveAll at hopen htext hresolved hresolvedText ⊢
      rw [List.foldl_append, List.foldl_append, List.foldl_cons, List.foldl_nil, List.foldl_cons,
        List.foldl_nil, htext]
      exact ⟨hresolved, hresolvedText⟩

/-- A reference is left in one of the selectors iff one stands in an argument. -/
theorem refers_resolveAll_iff {nest : List SelectorList} (hne : ∀ list ∈ nest, list ≠ [])
    (h : ∀ list ∈ nest, ∀ s ∈ list, s.Clear minify) :
    (∃ ts ∈ resolveAll minify nest, Refers ts) ↔
      ∃ list ∈ nest, ∃ s ∈ list, s.RefersInside minify := by
  induction nest using List.reverseRecOn with
  | nil => simp [resolveAll]
  | append_singleton nest list ih =>
      obtain ⟨hneNest, hneList⟩ := List.forall_mem_append.mp hne
      obtain ⟨hnest, hlist⟩ := List.forall_mem_append.mp h
      have hstep := refers_resolveTokens (hneList list (List.mem_singleton_self list))
        (hlist list (List.mem_singleton_self list)) (resolveAll_eq hnest).1
      have hfold : resolveAll minify (nest ++ [list]) =
          resolveTokens minify (resolveAll minify nest) list := by
        simp [resolveAll]
      rw [hfold, hstep, ih hneNest hnest]
      simp [or_and_right, exists_or]

theorem refers_iff_any {ts : List Token} :
    Refers ts ↔ ts.any (·.isDelim "&") = true := by
  simp [Refers]

/-- Reading open-ended tokens back neither takes nor adds a reference. -/
theorem refers_tokenize_iff {ts : List Token} (h : OpenEnded minify ts) :
    Refers (tokenize (String.ofList (textOf ts))) ↔ Refers ts := by
  have hread := congrArg (List.any · (·.isDelim "&")) (tokenize_textOf_near h.readable h.near_self)
  have hplace : (fun t : Token => t.isDelim "&") ∘ Token.unplaced = fun t => t.isDelim "&" := rfl
  have hend : endToken.isDelim "&" = false := rfl
  rw [List.any_append, List.any_map, List.any_map, hplace, List.any_cons, List.any_nil, hend,
    Bool.or_false, Bool.or_false] at hread
  rw [refers_iff_any, refers_iff_any, hread]
  refine Bool.eq_iff_iff.mp (any_fused ?_ ?_ ?_ ts)
  · exact fun t ht => Bool.eq_false_iff.mpr (not_isDelim_of_type ht (by decide) _)
  · exact fun t ht => Bool.eq_false_iff.mpr (not_isDelim_of_isDelim ht (by decide))
  · exact fun t ht => Bool.eq_false_iff.mpr (not_isDelim_of_type ht (by decide) _)

/-- In the text of the selectors that rules inside each other give, read as tokens, there is a
reference to a parent iff an argument of one of the selectors holds one. -/
theorem refers_tokenize_joined_iff {nest : List SelectorList}
    (hsome : resolveAll minify nest ≠ []) (hne : ∀ list ∈ nest, list ≠ [])
    (h : ∀ list ∈ nest, ∀ s ∈ list, s.Clear minify) :
    Refers (tokenize (String.ofList
        (joinSelectors minify (nest.foldl (resolveSelectors minify) [])))) ↔
      ∃ list ∈ nest, ∃ s ∈ list, s.RefersInside minify := by
  obtain ⟨hopen, htext⟩ := resolveAll_eq h
  rw [htext, ← textOf_joinTokens, refers_tokenize_iff (opens_joinTokens hsome hopen).openEnded,
    refers_joinTokens, refers_resolveAll_iff hne h]

end Resolving

end Cascade
