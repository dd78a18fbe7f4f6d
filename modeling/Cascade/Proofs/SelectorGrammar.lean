import Cascade.Selector.Parser

/-!
# How selectors are written

The relations `WrittenAs` say how a selector tree may be written: as plain tokens,
or with its attributes in blocks and its pseudo-classes in calls.  The functions
`yield` list what a tree holds, from the left to the right.

**Results.**
* `PseudoClass.WrittenAs.front`, `PseudoElement.WrittenAs.front`: one colon and two
  colons tell pseudo-classes and pseudo-elements apart.
-/

namespace Cascade

/-! ## Runs of values -/

/-- The values are whitespace. -/
def AllBlank (vs : List Value) : Prop :=
  ∀ v ∈ vs, v.isWhitespace = true

theorem AllBlank.nil : AllBlank [] := by
  intro v hv
  cases hv

theorem AllBlank.append {us vs : List Value} (hus : AllBlank us) (hvs : AllBlank vs) :
    AllBlank (us ++ vs) :=
  fun v hv => (List.mem_append.mp hv).elim (hus v) (hvs v)

/-- The value is no token that opens or closes a group. -/
def Value.IsInner (v : Value) : Prop :=
  ∀ t, v = .token t → t.type.closer? = none ∧ t.type.isCloser = false

/-- Every bracket and function among the values is closed by its own closer. -/
inductive BalancedRun : List Value → Prop
  | nil : BalancedRun []
  | inner {v : Value} {vs : List Value} : v.IsInner → BalancedRun vs → BalancedRun (v :: vs)
  | group {opener closer : Token} {us vs : List Value} :
      opener.type.closer? = some closer.type → BalancedRun us → BalancedRun vs →
      BalancedRun (.token opener :: (us ++ .token closer :: vs))

/-- The values write the trees one behind the other. -/
inductive WrittenAll {α : Type} (W : α → List Value → Prop) : List α → List Value → Prop
  | nil : WrittenAll W [] []
  | cons {a : α} {as : List α} {us vs : List Value} :
      W a us → WrittenAll W as vs → WrittenAll W (a :: as) (us ++ vs)

theorem WrittenAll.eq_nil {α : Type} {W : α → List Value → Prop} {us : List Value}
    (h : WrittenAll W [] us) :
    us = [] := by
  cases h
  rfl

/-- What passes from values to each tree that they write holds of all trees of a run. -/
theorem WrittenAll.forall_of_forall {α : Type} {W : α → List Value → Prop} {Q : Value → Prop}
    {R : α → Prop} {as : List α} {vs : List Value} (h : WrittenAll W as vs) (hvs : ∀ v ∈ vs, Q v)
    (hW : ∀ a us, W a us → (∀ v ∈ us, Q v) → R a) :
    ∀ a ∈ as, R a := by
  induction h with
  | nil => exact List.forall_mem_nil _
  | cons ha _ ih =>
      obtain ⟨hfront, hbehind⟩ := List.forall_mem_append.mp hvs
      exact List.forall_mem_cons.mpr ⟨hW _ _ ha hfront, ih hbehind⟩

theorem WrittenAll.length_le {α : Type} {W : α → List Value → Prop} {as : List α} {us : List Value}
    (hW : ∀ a vs, W a vs → vs ≠ []) (h : WrittenAll W as us) :
    as.length ≤ us.length := by
  induction h with
  | nil => exact Nat.le_refl 0
  | cons ha _ ih =>
      have hpos := List.length_pos_iff.mpr (hW _ _ ha)
      rw [List.length_cons, List.length_append]
      omega

/-! ## How selectors are written -/

/-- The value is an identifier or a star. -/
def Value.isName (v : Value) : Bool :=
  v.hasType .ident || v.isDelim "*"

/-- The tokens of a qualifier. -/
def Qualifier.yield (q : Qualifier) : List Value :=
  (q.name.toList ++ [q.bar]).map .token

/-- A qualifier is a bar, which a name or a star may precede. -/
structure Qualifier.Proper (q : Qualifier) : Prop where
  name : ∀ t ∈ q.name, (Value.token t).isName = true
  bar : q.bar.isDelim "|" = true

/-- The tokens of a qualifier that may be missing. -/
def qualifierYield (q : Option Qualifier) : List Value :=
  (q.map Qualifier.yield).getD []

namespace TypeSelector

/-- The tokens of a type selector. -/
def yield : TypeSelector → List Value
  | named q ident => qualifierYield q ++ [.token ident]
  | universal q star => qualifierYield q ++ [.token star]

/-- A type selector is a name or a star, which a qualifier may precede. -/
def Proper : TypeSelector → Prop
  | named q ident => (∀ p ∈ q, p.Proper) ∧ ident.type = .ident
  | universal q star => (∀ p ∈ q, p.Proper) ∧ star.isDelim "*" = true

end TypeSelector

/-- The signs that may precede the equals sign of an attribute. -/
def matcherSigns : List String :=
  ["~", "|", "^", "$", "*"]

/-- The words that may follow the value of an attribute. -/
def modifierWords : List String :=
  ["i", "I", "s", "S"]

/-- The tokens of a matcher. -/
def Matcher.yield (m : Matcher) : List Value :=
  (m.sign.toList ++ [m.equals]).map .token

/-- A matcher is an equals sign, which one of five signs may precede. -/
structure Matcher.Proper (m : Matcher) : Prop where
  sign : ∀ t ∈ m.sign, t.type = .delim ∧ matcherSigns.contains t.text = true
  equals : m.equals.isDelim "=" = true

namespace Attribute

/-- The tokens of an attribute. -/
def yield (a : Attribute) : List Value :=
  .token a.opener :: (qualifierYield a.qualifier ++ .token a.name ::
    ((a.matcher.map Matcher.yield).getD [] ++ (a.value.toList ++ a.modifier.toList).map .token ++
      [.token a.closer]))

/-- The values write an attribute behind its bracket. -/
inductive WrittenBehind : Attribute → List Value → Prop
  | plain {opener name closer : Token} {q : Option Qualifier} {before behind : List Value} :
      AllBlank before → (∀ p ∈ q, p.Proper) → name.type = .ident → AllBlank behind →
      closer.type = .closeBracket →
      WrittenBehind ⟨opener, q, name, none, none, none, closer⟩
        (before ++ (qualifierYield q ++ .token name :: (behind ++ [.token closer])))
  | valued {opener name value closer : Token} {q : Option Qualifier} {m : Matcher}
      {modifier : Option Token} {before behind blanks blanks' blanks'' : List Value} :
      AllBlank before → (∀ p ∈ q, p.Proper) → name.type = .ident → AllBlank behind →
      m.Proper → AllBlank blanks → (value.type = .string ∨ value.type = .ident) →
      AllBlank blanks' →
      (∀ t ∈ modifier, t.type = .ident ∧ modifierWords.contains t.text = true) →
      AllBlank blanks'' → closer.type = .closeBracket →
      WrittenBehind ⟨opener, q, name, some m, some value, modifier, closer⟩
        (before ++ (qualifierYield q ++ .token name :: (behind ++ (m.yield ++ (blanks ++
          .token value :: (blanks' ++ (modifier.toList.map .token ++
            (blanks'' ++ [.token closer]))))))))

/-- The values write an attribute: its bracket with the tokens behind it, or a block that starts with
them. -/
inductive WrittenAs : Attribute → List Value → Prop
  | flat {a : Attribute} {vs : List Value} :
      a.opener.type = .openBracket → a.WrittenBehind vs → WrittenAs a (.token a.opener :: vs)
  | block {a : Attribute} {contents us vs : List Value} {closer : Token} :
      a.opener.type = .openBracket → a.WrittenBehind us → contents ++ [.token closer] = us ++ vs →
      WrittenAs a [.block a.opener contents (some closer)]

end Attribute

namespace PseudoClass

/-- The tokens of a pseudo-class. -/
def yield (p : PseudoClass) : List Value :=
  .token p.colon :: .token p.name :: (p.argument.getD [] ++ p.closer.toList.map .token)

/-- The values write a pseudo-class: a name, a function with balanced values up to its parenthesis, or
a call. -/
inductive WrittenAs : PseudoClass → List Value → Prop
  | plain {colon name : Token} :
      colon.type = .colon → name.type = .ident →
      WrittenAs ⟨colon, name, none, none⟩ [.token colon, .token name]
  | function {colon name closer : Token} {argument : List Value} :
      colon.type = .colon → name.type = .function → BalancedRun argument →
      closer.type = .closeParen →
      WrittenAs ⟨colon, name, some argument, some closer⟩
        (.token colon :: .token name :: (argument ++ [.token closer]))
  | call {colon name closer : Token} {args : List (List Value)} {commas : List Token} :
      colon.type = .colon →
      WrittenAs ⟨colon, name, some (flattenArguments args commas), some closer⟩
        [.token colon, .call name args commas (some closer)]

/-- A pseudo-class starts with one colon. -/
theorem WrittenAs.front {p : PseudoClass} {us : List Value} (hp : p.WrittenAs us) :
    ∃ colon v vs, us = .token colon :: v :: vs ∧ colon.type = .colon ∧ v.hasType .colon = false := by
  cases hp with
  | plain hcolon hname => exact ⟨_, _, _, rfl, hcolon, by simp [Value.hasType, hname]⟩
  | function hcolon hname _ _ => exact ⟨_, _, _, rfl, hcolon, by simp [Value.hasType, hname]⟩
  | call hcolon => exact ⟨_, _, _, rfl, hcolon, rfl⟩

end PseudoClass

namespace Subclass

/-- The tokens of a condition. -/
def yield : Subclass → List Value
  | id hash => [.token hash]
  | className dot ident => [.token dot, .token ident]
  | attr a => a.yield
  | pseudo p => p.yield
  | nesting ampersand => [.token ampersand]

/-- The values write a condition. -/
inductive WrittenAs : Subclass → List Value → Prop
  | id {hash : Token} : hash.isIdHash = true → WrittenAs (.id hash) [.token hash]
  | className {dot ident : Token} :
      dot.isDelim "." = true → ident.type = .ident →
      WrittenAs (.className dot ident) [.token dot, .token ident]
  | attr {a : Attribute} {vs : List Value} : a.WrittenAs vs → WrittenAs (.attr a) vs
  | pseudo {p : PseudoClass} {vs : List Value} : p.WrittenAs vs → WrittenAs (.pseudo p) vs
  | nesting {ampersand : Token} :
      ampersand.isDelim "&" = true → WrittenAs (.nesting ampersand) [.token ampersand]

end Subclass

namespace PseudoElement

/-- The tokens of a pseudo-element and of the pseudo-classes behind it. -/
def yield (e : PseudoElement) : List Value :=
  .token e.colon :: (e.element.yield ++ e.classes.flatMap PseudoClass.yield)

/-- The values write a pseudo-element with the pseudo-classes behind it. -/
inductive WrittenAs : PseudoElement → List Value → Prop
  | intro {e : PseudoElement} {us vs : List Value} :
      e.colon.type = .colon → e.element.WrittenAs us → WrittenAll PseudoClass.WrittenAs e.classes vs →
      WrittenAs e (.token e.colon :: (us ++ vs))

/-- A pseudo-element starts with two colons. -/
theorem WrittenAs.front {e : PseudoElement} {us : List Value} (he : e.WrittenAs us) :
    ∃ t u vs, us = .token t :: .token u :: vs ∧ t.type = .colon ∧ u.type = .colon := by
  cases he with
  | intro hcolon helement _ =>
      obtain ⟨u, v, vs, rfl, hu, _⟩ := helement.front
      exact ⟨_, u, _, rfl, hcolon, hu⟩

end PseudoElement

namespace Compound

/-- The tokens of a compound. -/
def yield (c : Compound) : List Value :=
  (c.type.map TypeSelector.yield).getD [] ++ (c.subclasses.flatMap Subclass.yield ++
    c.pseudos.flatMap PseudoElement.yield)

/-- The values write a compound, which selects something. -/
inductive WrittenAs : Compound → List Value → Prop
  | intro {c : Compound} {us vs : List Value} :
      (∀ t ∈ c.type, t.Proper) → WrittenAll Subclass.WrittenAs c.subclasses us →
      WrittenAll PseudoElement.WrittenAs c.pseudos vs → c.isEmpty = false →
      WrittenAs c ((c.type.map TypeSelector.yield).getD [] ++ (us ++ vs))

end Compound

/-- The values stand for a combinator with its tokens: blanks, or a sign with or without blanks around
it. -/
inductive Combinator.WrittenAs : Combinator → List Token → List Value → Prop
  | blank {blanks : List Value} :
      AllBlank blanks → blanks ≠ [] → WrittenAs .descendant [] blanks
  | sign {kind : Combinator} {t : Token} {before behind : List Value} :
      kind ∈ [.child, .nextSibling, .laterSibling] → t.isDelim kind.sign = true →
      AllBlank before → AllBlank behind → WrittenAs kind [t] (before ++ .token t :: behind)
  | column {t u : Token} {before behind : List Value} :
      t.isDelim "|" = true → u.isDelim "|" = true → AllBlank before → AllBlank behind →
      WrittenAs .column [t, u] (before ++ .token t :: .token u :: behind)

namespace SelectorPart

/-- The tokens of a compound with the combinator before it. -/
def yield (p : SelectorPart) : List Value :=
  p.tokens.map .token ++ p.compound.yield

/-- The values write a compound with the combinator before it. -/
inductive WrittenAs : SelectorPart → List Value → Prop
  | intro {p : SelectorPart} {us vs : List Value} :
      p.combinator.WrittenAs p.tokens us → p.compound.WrittenAs vs → WrittenAs p (us ++ vs)

end SelectorPart

namespace ComplexSelector

/-- The tokens of a complex selector. -/
def yield (s : ComplexSelector) : List Value :=
  s.flatMap SelectorPart.yield

/-- The values write a complex selector.  Its first compound has no combinator. -/
inductive WrittenAs : ComplexSelector → List Value → Prop
  | intro {first : Compound} {others : List SelectorPart} {us vs : List Value} :
      first.WrittenAs us → WrittenAll SelectorPart.WrittenAs others vs →
      WrittenAs (⟨.descendant, [], first⟩ :: others) (us ++ vs)

end ComplexSelector

/-- The values write a selector list, with blanks around each selector. -/
inductive SelectorList.WrittenAs : SelectorList → List Value → Prop
  | single {s : ComplexSelector} {before vs behind : List Value} :
      AllBlank before → s.WrittenAs vs → AllBlank behind →
      WrittenAs [s] (before ++ (vs ++ behind))
  | cons {s : ComplexSelector} {list : SelectorList} {before vs behind rest : List Value}
      {comma : Token} :
      AllBlank before → s.WrittenAs vs → AllBlank behind → comma.type = .comma →
      WrittenAs list rest → WrittenAs (s :: list) (before ++ (vs ++ (behind ++ .token comma :: rest)))

/-- So it holds of all selectors of a list. -/
theorem SelectorList.WrittenAs.forall_of_forall {Q : Value → Prop} {R : ComplexSelector → Prop}
    {list : SelectorList} {vs : List Value} (h : list.WrittenAs vs) (hvs : ∀ v ∈ vs, Q v)
    (hR : ∀ s us, s.WrittenAs us → (∀ v ∈ us, Q v) → R s) :
    ∀ s ∈ list, R s := by
  induction h with
  | single _ hs _ =>
      obtain ⟨-, hvs⟩ := List.forall_mem_append.mp hvs
      exact List.forall_mem_singleton.mpr (hR _ _ hs (List.forall_mem_append.mp hvs).1)
  | cons _ hs _ _ _ ih =>
      obtain ⟨-, hvs⟩ := List.forall_mem_append.mp hvs
      obtain ⟨hselector, hvs⟩ := List.forall_mem_append.mp hvs
      obtain ⟨-, hvs⟩ := List.forall_mem_append.mp hvs
      exact List.forall_mem_cons.mpr ⟨hR _ _ hs hselector, ih (List.forall_mem_cons.mp hvs).2⟩

end Cascade
