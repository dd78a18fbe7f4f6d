import Cascade.Proofs.SelectorLists
import Mathlib.Computability.Language

/-!
# The language of selectors

Which token lists are selector lists, as a language put together by union,
concatenation and repetition.

**Method.**  Values that are tokens write a tree exactly when the tokens are in the
language of its kind: `mem_*` goes from trees to the language, `exists_*` from the
language to trees.  `Sheds us ys` says that the values, without the blanks outside
arguments, are `ys`.

**Results.**
* `mem_selectorList`, `exists_selectorList`: the language is that of the trees.
* `Selector.parse_accepts`: a token list is read to a tree exactly when it is in the
  language, and the tree holds all tokens but the blanks outside arguments.
-/

open Computability

namespace Cascade
namespace Grammar

/-! ## The grammar -/

/-- One token with a property. -/
def one (p : Token → Bool) : Language Token :=
  {ts | ∃ t, p t = true ∧ ts = [t]}

/-- One token of a type. -/
def typed (type : TokenType) : Language Token :=
  one (·.type == type)

/-- One delimiter. -/
def sign (text : String) : Language Token :=
  one (·.isDelim text)

/-- The words of a language, or nothing. -/
def optional (words : Language Token) : Language Token :=
  1 + words

/-- Whitespace, or nothing. -/
def blanks : Language Token :=
  (typed .whitespace)∗

/-- An identifier or a star. -/
def nameOrStar : Language Token :=
  typed .ident + sign "*"

/-- The namespace part of a name. -/
def qualifier : Language Token :=
  optional nameOrStar * sign "|"

/-- The element that a compound selects. -/
def typeSelector : Language Token :=
  optional qualifier * nameOrStar

/-- The sign between an attribute and its value. -/
def matcher : Language Token :=
  optional (one fun t => t.type == .delim && matcherSigns.contains t.text) * sign "="

/-- The letter behind the value of an attribute. -/
def modifier : Language Token :=
  one fun t => t.type == .ident && modifierWords.contains t.text

/-- The value of an attribute with the matcher before it. -/
def attributeValue : Language Token :=
  matcher * (blanks * ((typed .string + typed .ident) * (blanks * (optional modifier * blanks))))

/-- A condition on an attribute. -/
def attributeCondition : Language Token :=
  typed .openBracket * (blanks * (optional qualifier * (typed .ident * (blanks *
    (optional attributeValue * typed .closeBracket)))))

/-- Tokens whose brackets match. -/
def balancedRun : Language Token :=
  {ts | BalancedRun (ts.map .token)}

/-- A pseudo-class with its colon. -/
def pseudoClass : Language Token :=
  typed .colon * (typed .ident + typed .function * (balancedRun * typed .closeParen))

/-- A condition on the element that a compound selects. -/
def condition : Language Token :=
  one Token.isIdHash + sign "." * typed .ident + sign "&" + pseudoClass + attributeCondition

/-- A pseudo-element with the pseudo-classes behind it. -/
def pseudoElement : Language Token :=
  typed .colon * (pseudoClass * pseudoClass∗)

/-- A compound selector, which is not empty. -/
def compound : Language Token :=
  {ts | ts ∈ optional typeSelector * (condition∗ * pseudoElement∗) ∧ ts ≠ []}

/-- Blanks, or a combinator with or without blanks around it. -/
def combinator : Language Token :=
  typed .whitespace * blanks +
    blanks * ((sign ">" + sign "+" + sign "~" + sign "|" * sign "|") * blanks)

/-- Compounds with combinators between them. -/
def complexSelector : Language Token :=
  compound * (combinator * compound)∗

/-- One selector with blanks around it. -/
def padded : Language Token :=
  blanks * (complexSelector * blanks)

/-- Selectors with commas between them. -/
def selectorList : Language Token :=
  padded * (typed .comma * padded)∗

/-! ## From trees to the language -/

/-- All values are tokens. -/
def Flat (us : List Value) : Prop :=
  ∀ v ∈ us, ∃ t, v = .token t

/-- The tokens that the values start with. -/
def letters (us : List Value) : List Token :=
  us.map Value.firstToken

@[simp] theorem letters_nil :
    letters [] = [] :=
  rfl

@[simp] theorem letters_token (t : Token) (us : List Value) :
    letters (.token t :: us) = [t] ++ letters us :=
  rfl

@[simp] theorem letters_append (us vs : List Value) :
    letters (us ++ vs) = letters us ++ letters vs :=
  List.map_append

@[simp] theorem letters_map (ts : List Token) :
    letters (ts.map .token) = ts := by
  rw [letters, List.map_map]
  exact List.map_id ts

@[simp] theorem flat_nil : Flat [] := by
  simp [Flat]

@[simp] theorem flat_cons (v : Value) (us : List Value) :
    Flat (v :: us) ↔ (∃ t, v = .token t) ∧ Flat us :=
  List.forall_mem_cons

@[simp] theorem flat_append (us vs : List Value) :
    Flat (us ++ vs) ↔ Flat us ∧ Flat vs :=
  List.forall_mem_append

theorem flat_map (ts : List Token) :
    Flat (ts.map .token) := by
  intro v hv
  obtain ⟨t, _, rfl⟩ := List.mem_map.mp hv
  exact ⟨t, rfl⟩

theorem map_letters {us : List Value} (h : Flat us) :
    (letters us).map .token = us := by
  induction us with
  | nil => rfl
  | cons v us ih =>
      obtain ⟨⟨t, rfl⟩, hus⟩ := (flat_cons v us).mp h
      exact congrArg _ (ih hus)

theorem mem_one {p : Token → Bool} {t : Token} (h : p t = true) :
    [t] ∈ one p :=
  ⟨t, h, rfl⟩

theorem mem_typed {t : Token} {type : TokenType} (h : t.type = type) :
    [t] ∈ typed type :=
  mem_one (beq_iff_eq.mpr h)

theorem mem_sign {t : Token} {text : String} (h : t.isDelim text = true) :
    [t] ∈ sign text :=
  mem_one h

theorem mem_optional {words : Language Token} {ts : List Token} (h : ts ∈ words) :
    ts ∈ optional words :=
  .inr h

theorem nil_mem_optional (words : Language Token) :
    [] ∈ optional words :=
  .inl Language.nil_mem_one

theorem append_mem_kstar {words : Language Token} {ts us : List Token} (hts : ts ∈ words)
    (hus : us ∈ words∗) :
    ts ++ us ∈ words∗ :=
  (mul_kstar_le_kstar : words * words∗ ≤ words∗) (Language.append_mem_mul hts hus)

theorem mem_blanks {us : List Value} (h : AllBlank us) :
    letters us ∈ blanks := by
  induction us with
  | nil => exact Language.nil_mem_kstar _
  | cons v us ih =>
      have hv := h v List.mem_cons_self
      cases v with
      | token t =>
          refine append_mem_kstar (mem_typed (beq_iff_eq.mp hv)) ?_
          exact ih fun w hw => h w (List.mem_cons_of_mem _ hw)
      | _ => cases hv

theorem mem_kstar_of_all {α : Type} {W : α → List Value → Prop} {words : Language Token} {as : List α}
    {us : List Value} (hW : ∀ a vs, W a vs → Flat vs → letters vs ∈ words) (h : WrittenAll W as us)
    (hflat : Flat us) :
    letters us ∈ words∗ := by
  induction h with
  | nil => exact Language.nil_mem_kstar _
  | cons ha _ ih =>
      rw [flat_append] at hflat
      rw [letters_append]
      exact append_mem_kstar (hW _ _ ha hflat.1) (ih hflat.2)

theorem mem_nameOrStar {t : Token} (h : (Value.token t).isName = true) :
    [t] ∈ nameOrStar := by
  rcases Bool.or_eq_true_iff.mp h with hident | hstar
  · exact .inl (mem_typed (beq_iff_eq.mp hident))
  · exact .inr (mem_sign hstar)

theorem mem_qualifier {q : Option Qualifier} (hq : ∀ p ∈ q, p.Proper) :
    letters (qualifierYield q) ∈ optional qualifier := by
  obtain _ | ⟨_ | name, bar⟩ := q
  · exact nil_mem_optional _
  · have hbar := (hq _ rfl).bar
    exact mem_optional (Language.append_mem_mul (nil_mem_optional _) (mem_sign hbar))
  · have hname := (hq _ rfl).name name rfl
    have hbar := (hq _ rfl).bar
    exact mem_optional (Language.append_mem_mul (mem_optional (mem_nameOrStar hname)) (mem_sign hbar))

theorem mem_typeSelector {t : TypeSelector} (ht : t.Proper) :
    letters t.yield ∈ typeSelector := by
  cases t with
  | named q ident =>
      rw [TypeSelector.yield, letters_append]
      exact Language.append_mem_mul (mem_qualifier ht.1) (.inl (mem_typed ht.2))
  | universal q star =>
      rw [TypeSelector.yield, letters_append]
      exact Language.append_mem_mul (mem_qualifier ht.1) (.inr (mem_sign ht.2))

theorem mem_matcher {m : Matcher} (hm : m.Proper) :
    letters m.yield ∈ matcher := by
  obtain ⟨_ | t, equals⟩ := m
  · exact Language.append_mem_mul (nil_mem_optional _) (mem_sign hm.equals)
  · obtain ⟨htype, hsign⟩ := hm.sign t rfl
    refine Language.append_mem_mul (mem_optional (mem_one ?_)) (mem_sign hm.equals)
    exact Bool.and_eq_true_iff.mpr ⟨beq_iff_eq.mpr htype, hsign⟩

theorem mem_attribute {a : Attribute} {us : List Value} (ha : a.WrittenAs us) (hflat : Flat us) :
    letters us ∈ attributeCondition := by
  cases ha with
  | block _ _ _ =>
      obtain ⟨⟨t, ht⟩, _⟩ := (flat_cons _ _).mp hflat
      cases ht
  | flat hopener ha =>
      have hopens : [a.opener] ∈ typed .openBracket := mem_typed hopener
      rw [letters_token]
      refine Language.append_mem_mul hopens ?_
      cases ha with
      | plain hbefore hq hname hbehind hcloser =>
          simp only [letters_append, letters_token, letters_nil, List.append_nil]
          refine Language.append_mem_mul (mem_blanks hbefore) (Language.append_mem_mul (mem_qualifier hq) ?_)
          refine Language.append_mem_mul (mem_typed hname) (Language.append_mem_mul (mem_blanks hbehind) ?_)
          exact Language.append_mem_mul (nil_mem_optional _) (mem_typed hcloser)
      | @valued _ _ value _ _ _ word _ _ _ _ _ hbefore hq hname hbehind hm hblanks hvalue hblanks' hword
          hblanks'' hcloser =>
          have hvalue' : [value] ∈ typed .string + typed .ident :=
            hvalue.imp mem_typed mem_typed
          have hword' : letters (word.toList.map .token) ∈ optional modifier := by
            cases word with
            | none => exact nil_mem_optional _
            | some t =>
                obtain ⟨hident, htext⟩ := hword t rfl
                exact mem_optional (mem_one (Bool.and_eq_true_iff.mpr ⟨beq_iff_eq.mpr hident, htext⟩))
          have hinner : _ ∈ attributeValue := Language.append_mem_mul (mem_matcher hm) (Language.append_mem_mul
            (mem_blanks hblanks) (Language.append_mem_mul hvalue' (Language.append_mem_mul
              (mem_blanks hblanks') (Language.append_mem_mul hword' (mem_blanks hblanks'')))))
          have hall := Language.append_mem_mul (mem_blanks hbefore) (Language.append_mem_mul
            (mem_qualifier hq) (Language.append_mem_mul (mem_typed hname) (Language.append_mem_mul
              (mem_blanks hbehind) (Language.append_mem_mul (mem_optional hinner) (mem_typed hcloser)))))
          simpa only [letters_append, letters_token, letters_nil, List.append_nil, List.append_assoc]
            using hall

theorem mem_pseudoClass {p : PseudoClass} {us : List Value} (hp : p.WrittenAs us) (hflat : Flat us) :
    letters us ∈ pseudoClass := by
  cases hp with
  | plain hcolon hname => exact Language.append_mem_mul (mem_typed hcolon) (.inl (mem_typed hname))
  | @function _ _ _ argument hcolon hname hrun hcloser =>
      have hargument : Flat argument := ((flat_append _ _).mp ((flat_cons _ _).mp
        ((flat_cons _ _).mp hflat).2).2).1
      have hrun' : letters argument ∈ balancedRun := by
        change BalancedRun ((letters argument).map .token)
        rw [map_letters hargument]
        exact hrun
      simp only [letters_append, letters_token, letters_nil, List.append_nil]
      refine Language.append_mem_mul (mem_typed hcolon) (.inr ?_)
      exact Language.append_mem_mul (mem_typed hname)
        (Language.append_mem_mul hrun' (mem_typed hcloser))
  | call _ =>
      obtain ⟨⟨t, ht⟩, _⟩ := (flat_cons _ _).mp ((flat_cons _ _).mp hflat).2
      cases ht

theorem mem_condition {p : Subclass} {us : List Value} (hp : p.WrittenAs us) (hflat : Flat us) :
    letters us ∈ condition := by
  cases hp with
  | id hhash => exact .inl (.inl (.inl (.inl (mem_one hhash))))
  | className hdot hident =>
      exact .inl (.inl (.inl (.inr (Language.append_mem_mul (mem_sign hdot) (mem_typed hident)))))
  | nesting hampersand => exact .inl (.inl (.inr (mem_sign hampersand)))
  | pseudo hp => exact .inl (.inr (mem_pseudoClass hp hflat))
  | attr ha => exact .inr (mem_attribute ha hflat)

theorem mem_pseudoElement {e : PseudoElement} {us : List Value} (he : e.WrittenAs us)
    (hflat : Flat us) :
    letters us ∈ pseudoElement := by
  cases he with
  | intro hcolon helement hclasses =>
      simp only [flat_cons, flat_append] at hflat
      rw [letters_token, letters_append]
      refine Language.append_mem_mul (mem_typed hcolon) (Language.append_mem_mul ?_ ?_)
      · exact mem_pseudoClass helement hflat.2.1
      · exact mem_kstar_of_all (fun _ _ => mem_pseudoClass) hclasses hflat.2.2

theorem mem_compound {k : Compound} {us : List Value} (hk : k.WrittenAs us) (hflat : Flat us) :
    letters us ∈ compound := by
  have hne : us ≠ [] := List.append_nil us ▸ (Scan.leads_of_compound hk []).ne_nil
  refine ⟨?_, fun hnil => hne (List.map_eq_nil_iff.mp hnil)⟩
  cases hk with
  | intro htype hps hes _ =>
      simp only [flat_append] at hflat
      rw [letters_append, letters_append]
      refine Language.append_mem_mul ?_ (Language.append_mem_mul ?_ ?_)
      · cases hcase : k.type with
        | none => exact nil_mem_optional _
        | some t => exact mem_optional (mem_typeSelector (htype t hcase))
      · exact mem_kstar_of_all (fun _ _ => mem_condition) hps hflat.2.1
      · exact mem_kstar_of_all (fun _ _ => mem_pseudoElement) hes hflat.2.2

theorem mem_combinator {kind : Combinator} {tokens : List Token} {us : List Value}
    (h : kind.WrittenAs tokens us) :
    letters us ∈ combinator := by
  cases h with
  | blank hblanks hne =>
      cases us with
      | nil => exact absurd rfl hne
      | cons v vs =>
          have hv := hblanks v List.mem_cons_self
          cases v with
          | token t =>
              refine .inl (Language.append_mem_mul (mem_typed (beq_iff_eq.mp hv)) (mem_blanks ?_))
              exact fun w hw => hblanks w (List.mem_cons_of_mem _ hw)
          | _ => cases hv
  | @sign _ t before behind hkind ht hbefore hbehind =>
      have hsign : [t] ∈ sign ">" + sign "+" + sign "~" + sign "|" * sign "|" := by
        simp only [List.mem_cons, List.not_mem_nil, or_false] at hkind
        rcases hkind with rfl | rfl | rfl
        · exact .inl (.inl (.inl (mem_sign ht)))
        · exact .inl (.inl (.inr (mem_sign ht)))
        · exact .inl (.inr (mem_sign ht))
      rw [letters_append, letters_token]
      exact .inr (Language.append_mem_mul (mem_blanks hbefore)
        (Language.append_mem_mul hsign (mem_blanks hbehind)))
  | @column t u before behind ht hu hbefore hbehind =>
      have hsign : [t] ++ [u] ∈ sign ">" + sign "+" + sign "~" + sign "|" * sign "|" :=
        .inr (Language.append_mem_mul (mem_sign ht) (mem_sign hu))
      rw [letters_append, letters_token, letters_token, ← List.append_assoc [t]]
      exact .inr (Language.append_mem_mul (mem_blanks hbefore)
        (Language.append_mem_mul hsign (mem_blanks hbehind)))

theorem mem_complexSelector {s : ComplexSelector} {us : List Value} (hs : s.WrittenAs us)
    (hflat : Flat us) :
    letters us ∈ complexSelector := by
  cases hs with
  | intro hk hps =>
      rw [flat_append] at hflat
      rw [letters_append]
      refine Language.append_mem_mul (mem_compound hk hflat.1) (mem_kstar_of_all ?_ hps hflat.2)
      rintro p vs ⟨hkind, hk⟩ hflat
      rw [flat_append] at hflat
      rw [letters_append]
      exact Language.append_mem_mul (mem_combinator hkind) (mem_compound hk hflat.2)

theorem mem_selectorList {list : SelectorList} {us : List Value} (h : list.WrittenAs us)
    (hflat : Flat us) :
    letters us ∈ selectorList := by
  induction h with
  | single hbefore hs hbehind =>
      simp only [flat_append] at hflat
      have hpadded : _ ∈ padded := Language.append_mem_mul (mem_blanks hbefore)
        (Language.append_mem_mul (mem_complexSelector hs hflat.2.1) (mem_blanks hbehind))
      have hlist : _ ∈ selectorList := Language.append_mem_mul hpadded (Language.nil_mem_kstar (typed .comma * padded))
      simpa only [letters_append, List.append_nil] using hlist
  | @cons s list before vs behind rest comma hbefore hs hbehind hcomma _ ih =>
      simp only [flat_append, flat_cons] at hflat
      have hpadded : _ ∈ padded := Language.append_mem_mul (mem_blanks hbefore)
        (Language.append_mem_mul (mem_complexSelector hs hflat.2.1) (mem_blanks hbehind))
      obtain ⟨first, hfirst, others, hothers, hsplit⟩ := Language.mem_mul.mp (ih hflat.2.2.2.2)
      have hmore := append_mem_kstar (Language.append_mem_mul (mem_typed hcomma) hfirst) hothers
      have hlist : _ ∈ selectorList := Language.append_mem_mul hpadded hmore
      simpa only [letters_append, letters_token, List.append_assoc, ← hsplit] using hlist

/-! ## From the language to trees -/

theorem exists_blanks_of_mem {ts : List Token} (h : ts ∈ blanks) :
    AllBlank (ts.map .token) := by
  obtain ⟨parts, rfl, hparts⟩ := Language.mem_kstar.mp h
  intro v hv
  obtain ⟨t, ht, rfl⟩ := List.mem_map.mp hv
  obtain ⟨part, hpart, hmem⟩ := List.mem_flatten.mp ht
  obtain ⟨u, hu, rfl⟩ := hparts part hpart
  rw [List.mem_singleton.mp hmem]
  exact hu

theorem exists_all_of_kstar {α : Type} {W : α → List Value → Prop} {words : Language Token}
    (hW : ∀ ts ∈ words, ∃ a, W a (ts.map .token)) {ts : List Token} (h : ts ∈ words∗) :
    ∃ as, WrittenAll W as (ts.map .token) := by
  obtain ⟨parts, rfl, hparts⟩ := Language.mem_kstar.mp h
  clear h
  induction parts with
  | nil => exact ⟨[], .nil⟩
  | cons part parts ih =>
      obtain ⟨hpart, hrest⟩ := List.forall_mem_cons.mp hparts
      obtain ⟨a, ha⟩ := hW part hpart
      obtain ⟨as, has⟩ := ih hrest
      refine ⟨a :: as, ?_⟩
      rw [List.flatten_cons, List.map_append]
      exact .cons ha has

theorem exists_nameOrStar {ts : List Token} (h : ts ∈ nameOrStar) :
    ∃ t, ts = [t] ∧ (Value.token t).isName = true := by
  rcases h with ⟨t, ht, rfl⟩ | ⟨t, ht, rfl⟩
  · exact ⟨t, rfl, Bool.or_eq_true_iff.mpr (.inl ht)⟩
  · exact ⟨t, rfl, Bool.or_eq_true_iff.mpr (.inr ht)⟩

theorem exists_qualifier {ts : List Token} (h : ts ∈ optional qualifier) :
    ∃ q : Option Qualifier, (∀ p ∈ q, p.Proper) ∧ ts.map .token = qualifierYield q := by
  rcases h with rfl | h
  · exact ⟨none, by simp, rfl⟩
  · obtain ⟨us, hus, _, ⟨bar, hbar, rfl⟩, rfl⟩ := Language.mem_mul.mp h
    rcases hus with rfl | hus
    · refine ⟨some ⟨none, bar⟩, ?_, rfl⟩
      rintro _ ⟨rfl⟩
      exact ⟨by simp, hbar⟩
    · obtain ⟨name, rfl, hname⟩ := exists_nameOrStar hus
      refine ⟨some ⟨some name, bar⟩, ?_, rfl⟩
      rintro _ ⟨rfl⟩
      refine ⟨?_, hbar⟩
      rintro _ ⟨rfl⟩
      exact hname

theorem exists_typeSelector {ts : List Token} (h : ts ∈ optional typeSelector) :
    ∃ o : Option TypeSelector, (∀ t ∈ o, t.Proper) ∧
      ts.map .token = (o.map TypeSelector.yield).getD [] := by
  rcases h with rfl | h
  · exact ⟨none, by simp, rfl⟩
  · obtain ⟨us, hus, vs, hvs, rfl⟩ := Language.mem_mul.mp h
    obtain ⟨q, hq, hyield⟩ := exists_qualifier hus
    rw [List.map_append, hyield]
    rcases hvs with ⟨ident, hident, rfl⟩ | ⟨star, hstar, rfl⟩
    · refine ⟨some (.named q ident), ?_, rfl⟩
      rintro _ ⟨rfl⟩
      exact ⟨hq, beq_iff_eq.mp hident⟩
    · refine ⟨some (.universal q star), ?_, rfl⟩
      rintro _ ⟨rfl⟩
      exact ⟨hq, hstar⟩

theorem exists_matcher {ts : List Token} (h : ts ∈ matcher) :
    ∃ m : Matcher, m.Proper ∧ ts.map .token = m.yield := by
  obtain ⟨us, hus, _, ⟨equals, hequals, rfl⟩, rfl⟩ := Language.mem_mul.mp h
  rcases hus with rfl | ⟨t, ht, rfl⟩
  · exact ⟨⟨none, equals⟩, ⟨by simp, hequals⟩, rfl⟩
  · refine ⟨⟨some t, equals⟩, ⟨?_, hequals⟩, rfl⟩
    rintro _ ⟨rfl⟩
    obtain ⟨htype, hsign⟩ := Bool.and_eq_true_iff.mp ht
    exact ⟨beq_iff_eq.mp htype, hsign⟩

theorem exists_modifier {ts : List Token} (h : ts ∈ optional modifier) :
    ∃ o : Option Token, (∀ t ∈ o, t.type = .ident ∧ modifierWords.contains t.text = true) ∧
      ts.map .token = o.toList.map Value.token := by
  rcases h with rfl | ⟨t, ht, rfl⟩
  · exact ⟨none, by simp, rfl⟩
  · refine ⟨some t, ?_, rfl⟩
    rintro _ ⟨rfl⟩
    obtain ⟨htype, hword⟩ := Bool.and_eq_true_iff.mp ht
    exact ⟨beq_iff_eq.mp htype, hword⟩

theorem exists_attribute {ts : List Token} (h : ts ∈ attributeCondition) :
    ∃ a : Attribute, a.WrittenAs (ts.map .token) := by
  obtain ⟨_, ⟨opener, hopener, rfl⟩, _, h₁, rfl⟩ := Language.mem_mul.mp h
  obtain ⟨before, hbefore, _, h₂, rfl⟩ := Language.mem_mul.mp h₁
  obtain ⟨us, hus, _, h₃, rfl⟩ := Language.mem_mul.mp h₂
  obtain ⟨_, ⟨name, hname, rfl⟩, _, h₄, rfl⟩ := Language.mem_mul.mp h₃
  obtain ⟨behind, hbehind, _, h₅, rfl⟩ := Language.mem_mul.mp h₄
  obtain ⟨vs, hvs, _, ⟨closer, hcloser, rfl⟩, rfl⟩ := Language.mem_mul.mp h₅
  obtain ⟨q, hq, hyield⟩ := exists_qualifier hus
  have hopens : opener.type = .openBracket := beq_iff_eq.mp hopener
  have hbefore' := exists_blanks_of_mem hbefore
  have hname' : name.type = .ident := beq_iff_eq.mp hname
  have hbehind' := exists_blanks_of_mem hbehind
  have hcloses : closer.type = .closeBracket := beq_iff_eq.mp hcloser
  rcases hvs with rfl | hvs
  · refine ⟨⟨opener, q, name, none, none, none, closer⟩, ?_⟩
    have hwritten : Attribute.WrittenBehind ⟨opener, q, name, none, none, none, closer⟩ _ :=
      .plain hbefore' hq hname' hbehind' hcloses
    simpa [hyield] using Attribute.WrittenAs.flat hopens hwritten
  · obtain ⟨ms, hms, _, h₆, rfl⟩ := Language.mem_mul.mp hvs
    obtain ⟨blanks, hblanks, _, h₇, rfl⟩ := Language.mem_mul.mp h₆
    obtain ⟨ws, hws, _, h₈, rfl⟩ := Language.mem_mul.mp h₇
    obtain ⟨blanks', hblanks', _, h₉, rfl⟩ := Language.mem_mul.mp h₈
    obtain ⟨letter, hletter, blanks'', hblanks'', rfl⟩ := Language.mem_mul.mp h₉
    obtain ⟨m, hm, hmatcher⟩ := exists_matcher hms
    obtain ⟨word, hword, hmodifier⟩ := exists_modifier hletter
    have hvalue : ∃ value : Token, ws = [value] ∧ (value.type = .string ∨ value.type = .ident) := by
      rcases hws with ⟨value, hvalue, rfl⟩ | ⟨value, hvalue, rfl⟩
      · exact ⟨value, rfl, .inl (beq_iff_eq.mp hvalue)⟩
      · exact ⟨value, rfl, .inr (beq_iff_eq.mp hvalue)⟩
    obtain ⟨value, rfl, hvalue⟩ := hvalue
    refine ⟨⟨opener, q, name, some m, some value, word, closer⟩, ?_⟩
    have hwritten : Attribute.WrittenBehind ⟨opener, q, name, some m, some value, word, closer⟩ _ :=
      .valued hbefore' hq hname' hbehind' hm (exists_blanks_of_mem hblanks) hvalue
        (exists_blanks_of_mem hblanks') hword (exists_blanks_of_mem hblanks'') hcloses
    simpa [hyield, hmatcher, hmodifier] using Attribute.WrittenAs.flat hopens hwritten

theorem exists_pseudoClass {ts : List Token} (h : ts ∈ pseudoClass) :
    ∃ p : PseudoClass, p.WrittenAs (ts.map .token) := by
  obtain ⟨_, ⟨colon, hcolon, rfl⟩, us, hus, rfl⟩ := Language.mem_mul.mp h
  have hcolon' : colon.type = .colon := beq_iff_eq.mp hcolon
  rcases hus with ⟨name, hname, rfl⟩ | hus
  · exact ⟨_, .plain hcolon' (beq_iff_eq.mp hname)⟩
  · obtain ⟨_, ⟨name, hname, rfl⟩, _, hvs, rfl⟩ := Language.mem_mul.mp hus
    obtain ⟨run, hrun, _, ⟨closer, hcloser, rfl⟩, rfl⟩ := Language.mem_mul.mp hvs
    refine ⟨⟨colon, name, some (run.map .token), some closer⟩, ?_⟩
    simpa using PseudoClass.WrittenAs.function hcolon' (beq_iff_eq.mp hname) hrun
      (beq_iff_eq.mp hcloser)

theorem exists_condition {ts : List Token} (h : ts ∈ condition) :
    ∃ p : Subclass, p.WrittenAs (ts.map .token) := by
  rcases h with (((⟨hash, hhash, rfl⟩ | hclass) | ⟨ampersand, hampersand, rfl⟩) | hpseudo) | hattr
  · exact ⟨_, .id hhash⟩
  · obtain ⟨_, ⟨dot, hdot, rfl⟩, _, ⟨ident, hident, rfl⟩, rfl⟩ := Language.mem_mul.mp hclass
    exact ⟨_, .className hdot (beq_iff_eq.mp hident)⟩
  · exact ⟨_, .nesting hampersand⟩
  · obtain ⟨p, hp⟩ := exists_pseudoClass hpseudo
    exact ⟨_, .pseudo hp⟩
  · obtain ⟨a, ha⟩ := exists_attribute hattr
    exact ⟨_, .attr ha⟩

theorem exists_pseudoElement {ts : List Token} (h : ts ∈ pseudoElement) :
    ∃ e : PseudoElement, e.WrittenAs (ts.map .token) := by
  obtain ⟨_, ⟨colon, hcolon, rfl⟩, _, h₁, rfl⟩ := Language.mem_mul.mp h
  obtain ⟨us, hus, vs, hvs, rfl⟩ := Language.mem_mul.mp h₁
  obtain ⟨p, hp⟩ := exists_pseudoClass hus
  obtain ⟨ps, hps⟩ := exists_all_of_kstar (fun _ => exists_pseudoClass) hvs
  refine ⟨⟨colon, p, ps⟩, ?_⟩
  have helement : PseudoElement.WrittenAs ⟨colon, p, ps⟩ _ := .intro (beq_iff_eq.mp hcolon) hp hps
  simpa using helement

theorem exists_compound {ts : List Token} (h : ts ∈ compound) :
    ∃ k : Compound, k.WrittenAs (ts.map .token) := by
  obtain ⟨h, hne⟩ := h
  obtain ⟨us, hus, _, h₁, rfl⟩ := Language.mem_mul.mp h
  obtain ⟨vs, hvs, ws, hws, rfl⟩ := Language.mem_mul.mp h₁
  obtain ⟨type, htype, hyield⟩ := exists_typeSelector hus
  obtain ⟨ps, hps⟩ := exists_all_of_kstar (fun _ => exists_condition) hvs
  obtain ⟨es, hes⟩ := exists_all_of_kstar (fun _ => exists_pseudoElement) hws
  refine ⟨⟨type, ps, es⟩, ?_⟩
  rw [List.map_append, List.map_append, hyield]
  refine .intro htype hps hes (Bool.eq_false_iff.mpr fun hempty => hne ?_)
  simp only [Compound.isEmpty, Bool.and_eq_true, Option.isNone_iff_eq_none, List.isEmpty_iff] at hempty
  obtain ⟨⟨rfl, rfl⟩, rfl⟩ := hempty
  have hvs : vs = [] := List.map_eq_nil_iff.mp hps.eq_nil
  have hws : ws = [] := List.map_eq_nil_iff.mp hes.eq_nil
  have hus : us = [] := List.map_eq_nil_iff.mp hyield
  rw [hus, hvs, hws]
  rfl

theorem exists_combinator {ts : List Token} (h : ts ∈ combinator) :
    ∃ kind tokens, Combinator.WrittenAs kind tokens (ts.map .token) := by
  rcases h with h | h
  · obtain ⟨_, ⟨t, ht, rfl⟩, us, hus, rfl⟩ := Language.mem_mul.mp h
    refine ⟨.descendant, [], .blank ?_ (List.cons_ne_nil _ _)⟩
    intro v hv
    rcases List.mem_cons.mp hv with rfl | hv
    · exact ht
    · exact exists_blanks_of_mem hus v hv
  · obtain ⟨before, hbefore, _, h₁, rfl⟩ := Language.mem_mul.mp h
    obtain ⟨us, hus, behind, hbehind, rfl⟩ := Language.mem_mul.mp h₁
    have hbefore' := exists_blanks_of_mem hbefore
    have hbehind' := exists_blanks_of_mem hbehind
    have hsign : ∀ kind ∈ [Combinator.child, .nextSibling, .laterSibling], us ∈ sign kind.sign →
        ∃ kind tokens, Combinator.WrittenAs kind tokens ((before ++ (us ++ behind)).map .token) := by
      rintro kind hkind ⟨t, ht, rfl⟩
      refine ⟨kind, [t], ?_⟩
      simpa using Combinator.WrittenAs.sign hkind ht hbefore' hbehind'
    rcases hus with ((hchild | hnext) | hlater) | hcolumn
    · exact hsign .child (by decide) hchild
    · exact hsign .nextSibling (by decide) hnext
    · exact hsign .laterSibling (by decide) hlater
    · obtain ⟨_, ⟨t, ht, rfl⟩, _, ⟨u, hu, rfl⟩, rfl⟩ := Language.mem_mul.mp hcolumn
      refine ⟨.column, [t, u], ?_⟩
      simpa using Combinator.WrittenAs.column ht hu hbefore' hbehind'

theorem exists_complexSelector {ts : List Token} (h : ts ∈ complexSelector) :
    ∃ s : ComplexSelector, s.WrittenAs (ts.map .token) := by
  obtain ⟨us, hus, vs, hvs, rfl⟩ := Language.mem_mul.mp h
  obtain ⟨k, hk⟩ := exists_compound hus
  have hpart : ∀ ws ∈ combinator * compound, ∃ p : SelectorPart, p.WrittenAs (ws.map .token) := by
    intro ws hws
    obtain ⟨us, hus, vs, hvs, rfl⟩ := Language.mem_mul.mp hws
    obtain ⟨kind, tokens, hkind⟩ := exists_combinator hus
    obtain ⟨k, hk⟩ := exists_compound hvs
    refine ⟨⟨kind, tokens, k⟩, ?_⟩
    rw [List.map_append]
    exact .intro hkind hk
  obtain ⟨ps, hps⟩ := exists_all_of_kstar hpart hvs
  refine ⟨⟨.descendant, [], k⟩ :: ps, ?_⟩
  rw [List.map_append]
  exact .intro hk hps

theorem exists_selectorList {ts : List Token} (h : ts ∈ selectorList) :
    ∃ list : SelectorList, list.WrittenAs (ts.map .token) := by
  obtain ⟨us, hus, _, hvs, rfl⟩ := Language.mem_mul.mp h
  obtain ⟨parts, rfl, hparts⟩ := Language.mem_kstar.mp hvs
  clear h hvs
  induction parts generalizing us with
  | nil =>
      obtain ⟨before, hbefore, _, h₁, rfl⟩ := Language.mem_mul.mp hus
      obtain ⟨ws, hws, behind, hbehind, rfl⟩ := Language.mem_mul.mp h₁
      obtain ⟨s, hs⟩ := exists_complexSelector hws
      refine ⟨[s], ?_⟩
      simpa using SelectorList.WrittenAs.single (exists_blanks_of_mem hbefore) hs
        (exists_blanks_of_mem hbehind)
  | cons part parts ih =>
      obtain ⟨hpart, hrest⟩ := List.forall_mem_cons.mp hparts
      obtain ⟨_, ⟨comma, hcomma, rfl⟩, vs, hvs, rfl⟩ := Language.mem_mul.mp hpart
      obtain ⟨list, hlist⟩ := ih vs hvs hrest
      obtain ⟨before, hbefore, _, h₁, rfl⟩ := Language.mem_mul.mp hus
      obtain ⟨ws, hws, behind, hbehind, rfl⟩ := Language.mem_mul.mp h₁
      obtain ⟨s, hs⟩ := exists_complexSelector hws
      refine ⟨s :: list, ?_⟩
      simpa using SelectorList.WrittenAs.cons (exists_blanks_of_mem hbefore) hs
        (exists_blanks_of_mem hbehind) (beq_iff_eq.mp hcomma) hlist

/-! ## What a tree holds -/

/-- The tokens without the blanks outside arguments.  The number tells how many groups are open inside
an argument, the argument itself included. -/
def withoutBlanks : Nat → List Token → List Token
  | _, [] => []
  | 0, t :: ts =>
      if t.type = .whitespace then withoutBlanks 0 ts
      else t :: withoutBlanks (if t.type = .function then 1 else 0) ts
  | depth + 1, t :: ts =>
      t :: withoutBlanks
        (if t.type.closer?.isSome then depth + 2 else if t.type.isCloser then depth else depth + 1) ts

/-- The tokens, without the blanks outside arguments, are the values. -/
def Sheds (ts : List Token) (ys : List Value) : Prop :=
  ∀ rest, (withoutBlanks 0 (ts ++ rest)).map Value.token =
    ys ++ (withoutBlanks 0 rest).map Value.token

theorem Sheds.nil : Sheds [] [] :=
  fun _ => rfl

theorem Sheds.append {ts us : List Token} {xs ys : List Value} (hts : Sheds ts xs)
    (hus : Sheds us ys) :
    Sheds (ts ++ us) (xs ++ ys) := by
  intro rest
  rw [List.append_assoc, hts, hus, List.append_assoc]

theorem Sheds.token {t : Token} (hblank : t.type ≠ .whitespace) (hfunction : t.type ≠ .function) :
    Sheds [t] [.token t] := by
  intro rest
  rw [List.singleton_append, withoutBlanks, if_neg hblank, if_neg hfunction]
  rfl

theorem Sheds.tokens {ts : List Token} (h : ∀ t ∈ ts, t.type ≠ .whitespace ∧ t.type ≠ .function) :
    Sheds ts (ts.map .token) := by
  induction ts with
  | nil => exact .nil
  | cons t ts ih =>
      obtain ⟨⟨hblank, hfunction⟩, hts⟩ := List.forall_mem_cons.mp h
      exact .append (.token hblank hfunction) (ih hts)

theorem sheds_blanks {us : List Value} (h : AllBlank us) :
    Sheds (letters us) [] := by
  induction us with
  | nil => exact .nil
  | cons v us ih =>
      have hv := h v List.mem_cons_self
      have hus := ih fun w hw => h w (List.mem_cons_of_mem _ hw)
      cases v with
      | token t =>
          intro rest
          have ht : t.type = .whitespace := beq_iff_eq.mp hv
          rw [letters_token, List.append_assoc, List.singleton_append, withoutBlanks, if_pos ht]
          exact hus rest
      | _ => cases hv

/-- Nothing is dropped from an argument. -/
theorem withoutBlanks_balanced {us : List Value} (hus : BalancedRun us) (hflat : Flat us) (depth : Nat)
    (rest : List Token) :
    withoutBlanks (depth + 1) (letters us ++ rest) = letters us ++ withoutBlanks (depth + 1) rest := by
  induction hus generalizing depth rest with
  | nil => rfl
  | @inner v vs hv _ ih =>
      obtain ⟨⟨t, rfl⟩, hvs⟩ := (flat_cons _ _).mp hflat
      obtain ⟨hopens, hcloses⟩ := hv t rfl
      simp only [letters_token, List.cons_append, List.nil_append, withoutBlanks, hopens, hcloses]
      exact congrArg _ (ih hvs depth rest)
  | @group opener closer us vs hpair _ _ ihus ihvs =>
      simp only [flat_cons, flat_append] at hflat
      have hcloses := TokenType.isCloser_of_closer? hpair
      have hopens := TokenType.closer?_of_isCloser hcloses
      simp only [letters_token, letters_append, List.append_assoc, List.cons_append, List.nil_append,
        withoutBlanks, hpair, Option.isSome_some, if_true, ihus hflat.2.1, hopens, hcloses,
        Option.isSome_none]
      simpa using ihvs hflat.2.2.2 depth rest

theorem Sheds.typed {t : Token} {type : TokenType} (ht : t.type = type) (hblank : type ≠ .whitespace)
    (hfunction : type ≠ .function) :
    Sheds [t] [.token t] :=
  .token (ht ▸ hblank) (ht ▸ hfunction)

theorem solid_of_isDelim {t : Token} {text : String} (h : t.isDelim text = true) :
    t.type ≠ .whitespace ∧ t.type ≠ .function := by
  have ht : t.type = .delim ∧ t.text = text := by simpa [Token.isDelim] using h
  simp [ht.1]

theorem solid_of_isName {t : Token} (h : (Value.token t).isName = true) :
    t.type ≠ .whitespace ∧ t.type ≠ .function := by
  rcases Bool.or_eq_true_iff.mp h with hident | hstar
  · have ht : t.type = .ident := beq_iff_eq.mp hident
    simp [ht]
  · exact solid_of_isDelim hstar

theorem sheds_qualifier {q : Option Qualifier} (hq : ∀ p ∈ q, p.Proper) :
    Sheds (letters (qualifierYield q)) (qualifierYield q) := by
  cases q with
  | none => exact .nil
  | some q =>
      have hproper := hq q rfl
      change Sheds (letters ((q.name.toList ++ [q.bar]).map .token)) _
      rw [letters_map]
      refine .tokens fun t ht => ?_
      rcases List.mem_append.mp ht with hname | hbar
      · exact solid_of_isName (hproper.name t (Option.mem_toList.mp hname))
      · rw [List.mem_singleton.mp hbar]
        exact solid_of_isDelim hproper.bar

theorem sheds_typeSelector {t : TypeSelector} (ht : t.Proper) :
    Sheds (letters t.yield) t.yield := by
  cases t with
  | named q ident =>
      rw [TypeSelector.yield, letters_append]
      exact .append (sheds_qualifier ht.1) (.typed ht.2 (by decide) (by decide))
  | universal q star =>
      obtain ⟨hblank, hfunction⟩ := solid_of_isDelim ht.2
      rw [TypeSelector.yield, letters_append]
      exact .append (sheds_qualifier ht.1) (.token hblank hfunction)

theorem sheds_matcher {m : Matcher} (hm : m.Proper) :
    Sheds (letters m.yield) m.yield := by
  rw [Matcher.yield, letters_map]
  refine .tokens fun t ht => ?_
  rcases List.mem_append.mp ht with hsign | hequals
  · simp [(hm.sign t (Option.mem_toList.mp hsign)).1]
  · rw [List.mem_singleton.mp hequals]
    exact solid_of_isDelim hm.equals

theorem sheds_attribute {a : Attribute} {us : List Value} (ha : a.WrittenAs us) (hflat : Flat us) :
    Sheds (letters us) a.yield := by
  cases ha with
  | block _ _ _ =>
      obtain ⟨⟨t, ht⟩, _⟩ := (flat_cons _ _).mp hflat
      cases ht
  | flat hopener ha =>
      have hopens : Sheds [a.opener] [.token a.opener] := .typed hopener (by decide) (by decide)
      cases ha with
      | plain hbefore hq hname hbehind hcloser =>
          have hcloses := Sheds.typed hcloser (by decide) (by decide)
          have hnamed := Sheds.typed hname (by decide) (by decide)
          have hall := hopens.append ((sheds_blanks hbefore).append ((sheds_qualifier hq).append
            (hnamed.append ((sheds_blanks hbehind).append hcloses))))
          simpa [Attribute.yield] using hall
      | @valued _ _ value _ _ _ word _ _ _ _ _ hbefore hq hname hbehind hm hblanks hvalue hblanks' hword
          hblanks'' hcloser =>
          have hcloses := Sheds.typed hcloser (by decide) (by decide)
          have hnamed := Sheds.typed hname (by decide) (by decide)
          have hvalue' : Sheds [value] [.token value] := by
            rcases hvalue with h | h <;> exact .typed h (by decide) (by decide)
          have hword' : Sheds word.toList (word.toList.map .token) :=
            .tokens fun t ht => by simp [(hword t (Option.mem_toList.mp ht)).1]
          have hall := hopens.append ((sheds_blanks hbefore).append ((sheds_qualifier hq).append
            (hnamed.append ((sheds_blanks hbehind).append ((sheds_matcher hm).append
              ((sheds_blanks hblanks).append (hvalue'.append ((sheds_blanks hblanks').append
                (hword'.append ((sheds_blanks hblanks'').append hcloses))))))))))
          simpa [Attribute.yield] using hall

theorem sheds_pseudoClass {p : PseudoClass} {us : List Value} (hp : p.WrittenAs us) (hflat : Flat us) :
    Sheds (letters us) p.yield := by
  cases hp with
  | plain hcolon hname =>
      exact .append (.typed hcolon (by decide) (by decide)) (.typed hname (by decide) (by decide))
  | @function colon name closer argument hcolon hname hrun hcloser =>
      have hargument : Flat argument := ((flat_append _ _).mp ((flat_cons _ _).mp
        ((flat_cons _ _).mp hflat).2).2).1
      have hcall : Sheds (name :: (letters argument ++ [closer]))
          (.token name :: (argument ++ [.token closer])) := by
        intro rest
        have hkeeps : withoutBlanks 1 (letters argument ++ closer :: rest) =
            letters argument ++ closer :: withoutBlanks 0 rest := by
          rw [withoutBlanks_balanced hrun hargument, withoutBlanks, hcloser]
          rfl
        rw [List.cons_append, List.append_assoc, List.singleton_append, withoutBlanks,
          if_neg (by simp [hname]), if_pos hname, hkeeps]
        simp [map_letters hargument]
      have hall := (Sheds.typed hcolon (by decide) (by decide)).append hcall
      simpa [PseudoClass.yield] using hall
  | call _ =>
      obtain ⟨⟨t, ht⟩, _⟩ := (flat_cons _ _).mp ((flat_cons _ _).mp hflat).2
      cases ht

theorem sheds_condition {p : Subclass} {us : List Value} (hp : p.WrittenAs us) (hflat : Flat us) :
    Sheds (letters us) p.yield := by
  cases hp with
  | @id hash hhash =>
      have htype : hash.type = .hash := beq_iff_eq.mp (Bool.and_eq_true_iff.mp hhash).1
      exact .typed htype (by decide) (by decide)
  | className hdot hident =>
      obtain ⟨hblank, hfunction⟩ := solid_of_isDelim hdot
      exact .append (.token hblank hfunction) (.typed hident (by decide) (by decide))
  | nesting hampersand =>
      obtain ⟨hblank, hfunction⟩ := solid_of_isDelim hampersand
      exact .token hblank hfunction
  | pseudo hp => exact sheds_pseudoClass hp hflat
  | attr ha => exact sheds_attribute ha hflat

theorem sheds_all {α : Type} {W : α → List Value → Prop} {y : α → List Value} {as : List α}
    {us : List Value} (hW : ∀ a vs, W a vs → Flat vs → Sheds (letters vs) (y a))
    (h : WrittenAll W as us) (hflat : Flat us) :
    Sheds (letters us) (as.flatMap y) := by
  induction h with
  | nil => exact .nil
  | cons ha _ ih =>
      rw [flat_append] at hflat
      rw [letters_append, List.flatMap_cons]
      exact .append (hW _ _ ha hflat.1) (ih hflat.2)

theorem sheds_pseudoElement {e : PseudoElement} {us : List Value} (he : e.WrittenAs us)
    (hflat : Flat us) :
    Sheds (letters us) e.yield := by
  cases he with
  | intro hcolon helement hclasses =>
      simp only [flat_cons, flat_append] at hflat
      rw [letters_token, letters_append]
      have hcolon' := Sheds.typed hcolon (by decide) (by decide)
      exact hcolon'.append ((sheds_pseudoClass helement hflat.2.1).append
        (sheds_all (fun _ _ => sheds_pseudoClass) hclasses hflat.2.2))

theorem sheds_compound {k : Compound} {us : List Value} (hk : k.WrittenAs us) (hflat : Flat us) :
    Sheds (letters us) k.yield := by
  cases hk with
  | intro htype hps hes _ =>
      simp only [flat_append] at hflat
      rw [letters_append, letters_append]
      refine .append ?_ (.append ?_ ?_)
      · cases hcase : k.type with
        | none => exact .nil
        | some t => exact sheds_typeSelector (htype t hcase)
      · exact sheds_all (fun _ _ => sheds_condition) hps hflat.2.1
      · exact sheds_all (fun _ _ => sheds_pseudoElement) hes hflat.2.2

theorem sheds_combinator {kind : Combinator} {tokens : List Token} {us : List Value}
    (h : kind.WrittenAs tokens us) :
    Sheds (letters us) (tokens.map .token) := by
  cases h with
  | blank hblanks _ => exact sheds_blanks hblanks
  | sign _ ht hbefore hbehind =>
      obtain ⟨hblank, hfunction⟩ := solid_of_isDelim ht
      have hall := (sheds_blanks hbefore).append ((Sheds.token hblank hfunction).append
        (sheds_blanks hbehind))
      simpa using hall
  | column ht hu hbefore hbehind =>
      obtain ⟨hblank, hfunction⟩ := solid_of_isDelim ht
      obtain ⟨hblank', hfunction'⟩ := solid_of_isDelim hu
      have hall := (sheds_blanks hbefore).append ((Sheds.token hblank hfunction).append
        ((Sheds.token hblank' hfunction').append (sheds_blanks hbehind)))
      simpa using hall

theorem sheds_complexSelector {s : ComplexSelector} {us : List Value} (hs : s.WrittenAs us)
    (hflat : Flat us) :
    Sheds (letters us) s.yield := by
  have hpart : ∀ (p : SelectorPart) (vs : List Value), p.WrittenAs vs → Flat vs →
      Sheds (letters vs) p.yield := by
    rintro p vs ⟨hkind, hk⟩ hflat
    rw [flat_append] at hflat
    rw [letters_append]
    exact .append (sheds_combinator hkind) (sheds_compound hk hflat.2)
  cases hs with
  | intro hk hps =>
      rw [flat_append] at hflat
      rw [letters_append]
      exact .append (sheds_compound hk hflat.1) (sheds_all hpart hps hflat.2)

theorem sheds_selectorList {list : SelectorList} {us : List Value} (h : list.WrittenAs us)
    (hflat : Flat us) :
    ∃ commas : List Token, commas.length + 1 = list.length ∧ (∀ t ∈ commas, t.type = .comma) ∧
      Sheds (letters us) (flattenArguments (list.map ComplexSelector.yield) commas) := by
  induction h with
  | single hbefore hs hbehind =>
      simp only [flat_append] at hflat
      refine ⟨[], rfl, by simp, ?_⟩
      have hall := (sheds_blanks hbefore).append ((sheds_complexSelector hs hflat.2.1).append
        (sheds_blanks hbehind))
      simpa [flattenArguments] using hall
  | @cons s list before vs behind rest comma hbefore hs hbehind hcomma _ ih =>
      simp only [flat_append, flat_cons] at hflat
      obtain ⟨commas, hlength, hcommas, hrest⟩ := ih hflat.2.2.2.2
      refine ⟨comma :: commas, by simp [hlength], List.forall_mem_cons.mpr ⟨hcomma, hcommas⟩, ?_⟩
      cases list with
      | nil => cases hlength
      | cons s' list =>
          have hcomma' := Sheds.typed hcomma (by decide) (by decide)
          have hall := (sheds_blanks hbefore).append ((sheds_complexSelector hs hflat.2.1).append
            ((sheds_blanks hbehind).append (hcomma'.append hrest)))
          simpa [flattenArguments] using hall

end Grammar

/-! ## Reading tokens -/

/-- The compounds of a selector that was written select something, and the first one has no
combinator. -/
theorem ComplexSelector.WrittenAs.proper {s : ComplexSelector} {us : List Value} (h : s.WrittenAs us) :
    (∃ k others, s = ⟨.descendant, [], k⟩ :: others) ∧ ∀ p ∈ s, p.compound.isEmpty = false := by
  have hcompound : ∀ {k : Compound} {vs : List Value}, k.WrittenAs vs → k.isEmpty = false := by
    rintro k vs ⟨_, _, _, hempty⟩
    exact hempty
  have hparts : ∀ {ps : List SelectorPart} {vs : List Value},
      WrittenAll SelectorPart.WrittenAs ps vs → ∀ p ∈ ps, p.compound.isEmpty = false := by
    intro ps vs hps
    induction hps with
    | nil => simp
    | cons hp _ ih =>
        refine List.forall_mem_cons.mpr ⟨?_, ih⟩
        cases hp with
        | intro _ hk => exact hcompound hk
  cases h with
  | @intro k others us vs hk hps =>
      exact ⟨⟨k, others, rfl⟩, List.forall_mem_cons.mpr ⟨hcompound hk, hparts hps⟩⟩

theorem SelectorList.WrittenAs.proper {list : SelectorList} {us : List Value} (h : list.WrittenAs us) :
    ∀ s ∈ list, (∃ k others, s = ⟨.descendant, [], k⟩ :: others) ∧
      ∀ p ∈ s, p.compound.isEmpty = false := by
  induction h with
  | single _ hs _ => exact List.forall_mem_cons.mpr ⟨hs.proper, by simp⟩
  | cons _ hs _ _ _ ih => exact List.forall_mem_cons.mpr ⟨hs.proper, ih⟩

namespace Selector

/-- Tokens are read to a selector list exactly when they are in the language of selector lists.  The
list holds all tokens but the commas between its selectors and the blanks outside arguments, in their
order; its compounds select something, and a selector starts without a combinator. -/
theorem parse_accepts (ts : List Token) :
    ((∃ list, parse (ts.map .token) = .ok list) ↔ ts ∈ Grammar.selectorList) ∧
    ∀ list, parse (ts.map .token) = .ok list →
      (∃ commas : List Token, commas.length + 1 = list.length ∧ (∀ t ∈ commas, t.type = .comma) ∧
        flattenArguments (list.map ComplexSelector.yield) commas =
          (Grammar.withoutBlanks 0 ts).map .token) ∧
      ∀ s ∈ list, (∃ k others, s = ⟨.descendant, [], k⟩ :: others) ∧
        ∀ p ∈ s, p.compound.isEmpty = false := by
  have hflat := Grammar.flat_map ts
  refine ⟨⟨?_, ?_⟩, ?_⟩
  · rintro ⟨list, hlist⟩
    simpa using Grammar.mem_selectorList (parse_eq_ok_iff.mp hlist) hflat
  · intro hts
    obtain ⟨list, hlist⟩ := Grammar.exists_selectorList hts
    exact ⟨list, parse_eq_ok_iff.mpr hlist⟩
  · intro list hlist
    have hwritten := parse_eq_ok_iff.mp hlist
    refine ⟨?_, hwritten.proper⟩
    obtain ⟨commas, hlength, hcommas, hsheds⟩ := Grammar.sheds_selectorList hwritten hflat
    refine ⟨commas, hlength, hcommas, ?_⟩
    have hall := hsheds []
    simpa [Grammar.withoutBlanks] using hall.symm

end Selector
end Cascade
