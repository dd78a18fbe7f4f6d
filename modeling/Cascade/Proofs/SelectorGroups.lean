import Cascade.Proofs.Gathering
import Cascade.Proofs.Outcomes
import Cascade.Proofs.SelectorLanguage

/-!
# Selectors in groups

A prelude may be read as the tokens stand or after they have been grouped.  Both
ways give the same selectors, but that arguments are grouped too.

**Method.**  `MakeUp ts vs` says that the tokens make up the values.  It can be cut
wherever the values or the trees are cut, and the tokens determine the values
(`MakeUp.unique`).  A tree that is written in groups is written in tokens with its
arguments laid flat (`spread_*`), and tokens that write a tree make up groups that
write one (`regroup_*`).

**Results.**
* `Selector.kind_of_parse`: a selector list that is not read is malformed.
* `Selector.parse_grouped`: the tokens and their groups are both refused, or read to
  the same selectors.
-/

namespace Cascade

open Grammar

/-! ## Laying values flat -/

mutual

/-- The tokens of a value. -/
def Value.tokens : Value → List Token
  | .token t => [t]
  | .block opener contents closer => opener :: (tokensOf contents ++ closer.toList)
  | .call name args commas closer => name :: (argumentTokens args commas ++ closer.toList)
  | .reference dollar name => [dollar, name]

/-- The tokens of values. -/
def tokensOf : List Value → List Token
  | [] => []
  | v :: vs => v.tokens ++ tokensOf vs

/-- The tokens of arguments with the commas between them. -/
def argumentTokens : List (List Value) → List Token → List Token
  | [], _ => []
  | [arg], _ => tokensOf arg
  | arg :: args, [] => tokensOf arg ++ argumentTokens args []
  | arg :: args, comma :: commas => tokensOf arg ++ comma :: argumentTokens args commas

end

theorem tokensOf_append (us vs : List Value) :
    tokensOf (us ++ vs) = tokensOf us ++ tokensOf vs := by
  induction us with
  | nil => rfl
  | cons v us ih => rw [List.cons_append, tokensOf, tokensOf, ih, List.append_assoc]

theorem argumentTokens_eq (args : List (List Value)) (commas : List Token) :
    argumentTokens args commas = tokensOf (flattenArguments args commas) := by
  fun_induction flattenArguments args commas with
  | case1 => rw [argumentTokens, tokensOf]
  | case2 => rw [argumentTokens]
  | case3 arg args hne ih => rw [argumentTokens, tokensOf_append, ih]; exact hne
  | case4 arg args comma commas hne ih =>
      rw [argumentTokens, tokensOf_append, tokensOf, ih]
      · rfl
      · exact hne

/-! ## Calls -/

namespace Read.CallState

/-- The values that have gone into a call. -/
def values (s : CallState) : List Value :=
  ((s.finished.reverse.zip s.commas.reverse).flatMap fun p => p.1 ++ [.token p.2]) ++ s.current.reverse

theorem values_add (s : CallState) (hlength : s.finished.length = s.commas.length) (v : Value) :
    (s.add v).values = s.values ++ [v] ∧ (s.add v).finished.length = (s.add v).commas.length := by
  unfold CallState.add
  split
  · next hcomma =>
      cases v with
      | token t =>
          refine ⟨?_, by simp [separate, hlength]⟩
          simp [values, separate, List.zip_append, hlength, Value.witness]
      | _ => cases hcomma
  · refine ⟨?_, hlength⟩
    simp [values, push]

theorem values_foldl (vs : List Value) (s : CallState) (hlength : s.finished.length = s.commas.length) :
    (vs.foldl CallState.add s).values = s.values ++ vs ∧
      (vs.foldl CallState.add s).finished.length = (vs.foldl CallState.add s).commas.length := by
  induction vs generalizing s with
  | nil => exact ⟨(List.append_nil _).symm, hlength⟩
  | cons v vs ih =>
      obtain ⟨hvalues, hlength'⟩ := s.values_add hlength v
      obtain ⟨hrest, hlast⟩ := ih (s.add v) hlength'
      refine ⟨?_, hlast⟩
      rw [List.foldl_cons, hrest, hvalues, List.append_assoc, List.singleton_append]

end Read.CallState

theorem flattenArguments_concat (args : List (List Value)) (commas : List Token) (last : List Value)
    (h : args.length = commas.length) :
    flattenArguments (args ++ [last]) commas =
      ((args.zip commas).flatMap fun p => p.1 ++ [.token p.2]) ++ last := by
  induction args generalizing commas with
  | nil => rfl
  | cons arg args ih =>
      cases commas with
      | nil => cases h
      | cons comma commas =>
          have hne : args ++ [last] = [] → False := by simp
          rw [List.cons_append, flattenArguments, ih commas (Nat.succ.inj h)]
          · simp
          · exact hne

theorem Read.CallState.flattenArguments_close (s : Read.CallState) (name : Token) (closer : Option Token)
    (hlength : s.finished.length = s.commas.length) :
    flattenArguments (s.close name closer).arguments (s.close name closer).commas = s.values := by
  have hreverse : s.finished.reverse.length = s.commas.reverse.length := by
    simpa using hlength
  unfold Read.CallState.close
  split
  · next hempty =>
      -- No value and no comma: the call has no argument at all.
      simp only [Bool.and_eq_true, List.isEmpty_iff] at hempty
      have hfinished : s.finished = [] := by
        rw [hempty.2] at hlength
        exact List.length_eq_zero_iff.mp hlength
      simp [Read.CallState.values, hempty.1, hempty.2, hfinished, flattenArguments]
  · simp only [List.reverse_cons]
    exact flattenArguments_concat _ _ _ hreverse

/-- The arguments of a call with their commas are the values between its parentheses. -/
theorem exists_callOf (name : Token) (vs : List Value) (closer : Token) :
    ∃ args commas, callOf name vs closer = .call name args commas (some closer) ∧
      flattenArguments args commas = vs := by
  obtain ⟨hvalues, hlength⟩ := Read.CallState.values_foldl vs {} rfl
  refine ⟨_, _, rfl, ?_⟩
  rw [Read.CallState.flattenArguments_close _ name (some closer) hlength, hvalues]
  rfl

/-! ## Tokens and the values that they make up -/

/-- The tokens make up the values. -/
inductive MakeUp : List Token → List Value → Prop
  | nil : MakeUp [] []
  | single {t : Token} {ts : List Token} {vs : List Value} :
      t.type.closer? = none → t.type.isCloser = false → MakeUp ts vs →
      MakeUp (t :: ts) (.token t :: vs)
  | block {opener closer : Token} {inner ts : List Token} {us vs : List Value} :
      opener.type.partner? = some closer.type → MakeUp inner us → MakeUp ts vs →
      MakeUp (opener :: (inner ++ closer :: ts)) (.block opener us (some closer) :: vs)
  | call {name closer : Token} {inner ts : List Token} {us vs : List Value} :
      name.type = .function → closer.type = .closeParen → MakeUp inner us → MakeUp ts vs →
      MakeUp (name :: (inner ++ closer :: ts)) (callOf name us closer :: vs)

theorem Gathered.makeUp {depth : Nat} {ts : List Token} {vs : List Value} (h : Gathered depth ts vs) :
    MakeUp ts vs := by
  induction h with
  | nil => exact .nil
  | single hopens hcloses _ _ ih => exact .single hopens hcloses ih
  | block hpartner _ _ ihinner ih => exact .block hpartner ihinner ih
  | call hname hparen _ _ ihinner ih => exact .call hname hparen ihinner ih

namespace MakeUp

variable {ts : List Token} {us vs : List Value}

theorem append {ts' : List Token} {vs' : List Value} (h : MakeUp ts vs) (h' : MakeUp ts' vs') :
    MakeUp (ts ++ ts') (vs ++ vs') := by
  induction h with
  | nil => exact h'
  | single hopens hcloses _ ih => exact .single hopens hcloses ih
  | @block opener closer inner ts us vs hpartner hinner _ _ ih =>
      rw [List.cons_append, List.append_assoc, List.cons_append, List.cons_append]
      exact .block hpartner hinner ih
  | @call name closer inner ts us vs hname hparen hinner _ _ ih =>
      rw [List.cons_append, List.append_assoc, List.cons_append, List.cons_append]
      exact .call hname hparen hinner ih

theorem cons_token {t : Token} (h : MakeUp ts (.token t :: vs)) :
    ∃ ts', ts = t :: ts' ∧ t.type.closer? = none ∧ t.type.isCloser = false ∧ MakeUp ts' vs := by
  cases h with
  | single hopens hcloses h => exact ⟨_, rfl, hopens, hcloses, h⟩

theorem cons_block {opener : Token} {closer : Option Token} (h : MakeUp ts (.block opener us closer :: vs)) :
    ∃ inner c ts', closer = some c ∧ ts = opener :: (inner ++ c :: ts') ∧
      opener.type.partner? = some c.type ∧ MakeUp inner us ∧ MakeUp ts' vs := by
  cases h with
  | block hpartner hinner h => exact ⟨_, _, _, rfl, rfl, hpartner, hinner, h⟩

theorem cons_call {name : Token} {args : List (List Value)} {commas : List Token}
    {closer : Option Token} (h : MakeUp ts (.call name args commas closer :: vs)) :
    ∃ inner c ts', closer = some c ∧ ts = name :: (inner ++ c :: ts') ∧ name.type = .function ∧
      c.type = .closeParen ∧ MakeUp inner (flattenArguments args commas) ∧ MakeUp ts' vs := by
  generalize hws : Value.call name args commas closer :: vs = ws at h
  cases h with
  | nil => cases hws
  | single _ _ _ => cases hws
  | block _ _ _ => cases hws
  | @call name' c inner ts' us' vs' hname hparen hinner h =>
      obtain ⟨args', commas', hcall, hflat⟩ := exists_callOf name' us' c
      rw [hcall] at hws
      cases hws
      rw [← hflat] at hinner
      exact ⟨inner, c, ts', rfl, rfl, hname, hparen, hinner, h⟩

theorem cons {v : Value} (h : MakeUp ts (v :: vs)) :
    ∃ ts₁ ts₂, ts = ts₁ ++ ts₂ ∧ MakeUp ts₁ [v] ∧ MakeUp ts₂ vs := by
  cases h with
  | @single t ts _ hopens hcloses h => exact ⟨[t], ts, rfl, .single hopens hcloses .nil, h⟩
  | @block opener closer inner ts us _ hpartner hinner h =>
      exact ⟨opener :: (inner ++ [closer]), ts, by simp, .block hpartner hinner .nil, h⟩
  | @call name closer inner ts us _ hname hparen hinner h =>
      exact ⟨name :: (inner ++ [closer]), ts, by simp, .call hname hparen hinner .nil, h⟩

/-- Cutting the values cuts the tokens. -/
theorem split (h : MakeUp ts (us ++ vs)) :
    ∃ ts₁ ts₂, ts = ts₁ ++ ts₂ ∧ MakeUp ts₁ us ∧ MakeUp ts₂ vs := by
  induction us generalizing ts with
  | nil => exact ⟨[], ts, rfl, .nil, h⟩
  | cons u us ih =>
      obtain ⟨ts₁, ts', rfl, h₁, h'⟩ := cons h
      obtain ⟨ts₂, ts₃, rfl, h₂, h₃⟩ := ih h'
      exact ⟨ts₁ ++ ts₂, ts₃, (List.append_assoc _ _ _).symm, h₁.append h₂, h₃⟩

/-- What has been closed is followed by nothing or by a closer. -/
def Stops : List Token → Prop
  | [] => True
  | t :: _ => t.type.isCloser = true

/-- Tokens that make up values do not start with a closer. -/
theorem not_stops {t : Token} (h : MakeUp (t :: ts) vs) :
    t.type.isCloser = false := by
  cases h with
  | single _ hcloses _ => exact hcloses
  | block hpartner _ _ => exact TokenType.isCloser_of_opens (TokenType.closer?_of_partner? hpartner)
  | call hname _ _ _ => exact TokenType.isCloser_of_opens (by rw [hname]; rfl)

/-- The tokens determine the values, and where they end. -/
theorem unique {ts' rest rest' : List Token} (h : MakeUp ts vs) (h' : MakeUp ts' us)
    (hrest : Stops rest) (hrest' : Stops rest') (heq : ts ++ rest = ts' ++ rest') :
    vs = us ∧ rest = rest' := by
  have hends : ∀ {t : Token} {xs ys : List Token} {ws : List Value}, MakeUp (t :: xs) ws → Stops ys →
      ∀ zs, t :: zs ≠ ys := by
    rintro t xs ys ws h hstops zs rfl
    rw [Stops, h.not_stops] at hstops
    cases hstops
  induction h generalizing ts' us rest rest' with
  | nil =>
      cases ts' with
      | nil =>
          cases h'
          exact ⟨rfl, heq⟩
      | cons t' ts' => exact absurd heq.symm (hends h' hrest _)
  | @single t ts vs hopens hcloses h ih =>
      cases h' with
      | nil => exact absurd heq (hends (.single hopens hcloses h) hrest' _)
      | single _ _ h' =>
          obtain ⟨rfl, hbehind⟩ := List.cons.inj heq
          obtain ⟨rfl, rfl⟩ := ih h' hrest hrest' hbehind
          exact ⟨rfl, rfl⟩
      | block hpartner _ _ =>
          obtain ⟨rfl, _⟩ := List.cons.inj heq
          rw [TokenType.closer?_of_partner? hpartner] at hopens
          cases hopens
      | call hname _ _ _ =>
          obtain ⟨rfl, _⟩ := List.cons.inj heq
          rw [hname] at hopens
          cases hopens
  | @block opener closer inner ts us vs hpartner hinner h ihinner ih =>
      cases h' with
      | nil => exact absurd heq (hends (.block hpartner hinner h) hrest' _)
      | single hopens _ _ =>
          obtain ⟨rfl, _⟩ := List.cons.inj heq
          rw [TokenType.closer?_of_partner? hpartner] at hopens
          cases hopens
      | @block _ closer' inner' ts' _ _ hpartner' hinner' h' =>
          simp only [List.cons_append, List.append_assoc, List.cons.injEq] at heq
          obtain ⟨rfl, hbehind⟩ := heq
          have hcloses : Stops (closer :: (ts ++ rest)) := TokenType.isCloser_of_partner? hpartner
          have hcloses' : Stops (closer' :: (ts' ++ rest')) := TokenType.isCloser_of_partner? hpartner'
          obtain ⟨rfl, hlast⟩ := ihinner hinner' hcloses hcloses' hbehind
          obtain ⟨rfl, hlast'⟩ := List.cons.inj hlast
          obtain ⟨rfl, rfl⟩ := ih h' hrest hrest' hlast'
          exact ⟨rfl, rfl⟩
      | call hname _ _ _ =>
          obtain ⟨rfl, _⟩ := List.cons.inj heq
          rw [hname] at hpartner
          cases hpartner
  | @call name closer inner ts us vs hname hparen hinner h ihinner ih =>
      cases h' with
      | nil => exact absurd heq (hends (.call hname hparen hinner h) hrest' _)
      | single hopens _ _ =>
          obtain ⟨rfl, _⟩ := List.cons.inj heq
          rw [hname] at hopens
          cases hopens
      | block hpartner _ _ =>
          obtain ⟨rfl, _⟩ := List.cons.inj heq
          rw [hname] at hpartner
          cases hpartner
      | @call _ closer' inner' ts' _ _ _ hparen' hinner' h' =>
          simp only [List.cons_append, List.append_assoc, List.cons.injEq] at heq
          obtain ⟨rfl, hbehind⟩ := heq
          have hcloses : Stops (closer :: (ts ++ rest)) := by rw [Stops, hparen]; rfl
          have hcloses' : Stops (closer' :: (ts' ++ rest')) := by rw [Stops, hparen']; rfl
          obtain ⟨rfl, hlast⟩ := ihinner hinner' hcloses hcloses' hbehind
          obtain ⟨rfl, hlast'⟩ := List.cons.inj hlast
          obtain ⟨rfl, rfl⟩ := ih h' hrest hrest' hlast'
          exact ⟨rfl, rfl⟩

theorem tokensOf_eq (h : MakeUp ts vs) :
    tokensOf vs = ts := by
  induction h with
  | nil => rfl
  | single _ _ _ ih => rw [tokensOf, ih]; rfl
  | block _ _ _ ihinner ih => rw [tokensOf, Value.tokens, ihinner, ih]; simp
  | @call name closer inner ts us vs _ _ _ _ ihinner ih =>
      obtain ⟨args, commas, hcall, hflat⟩ := exists_callOf name us closer
      rw [tokensOf, hcall, Value.tokens, argumentTokens_eq, hflat, ihinner, ih]
      simp

theorem not_closer {t : Token} (h : MakeUp ts vs) (ht : .token t ∈ vs) :
    t.type.isCloser = false := by
  obtain ⟨us, ws, rfl⟩ := List.append_of_mem ht
  obtain ⟨_, _, _, _, h'⟩ := h.split
  obtain ⟨_, _, _, hcloses, _⟩ := h'.cons_token
  exact hcloses

/-- Values that are tokens are made up by these tokens. -/
theorem map_of_flat (h : MakeUp ts vs) (hflat : Flat vs) :
    ts.map .token = vs := by
  induction h with
  | nil => rfl
  | single _ _ _ ih => exact congrArg _ (ih ((flat_cons _ _).mp hflat).2)
  | block _ _ _ _ _ =>
      obtain ⟨⟨t, ht⟩, _⟩ := (flat_cons _ _).mp hflat
      cases ht
  | call _ _ _ _ _ _ =>
      obtain ⟨⟨t, ht⟩, _⟩ := (flat_cons _ _).mp hflat
      cases ht

/-- What makes up values is balanced. -/
theorem balancedRun (h : MakeUp ts vs) :
    BalancedRun (ts.map .token) := by
  have hgroup : ∀ {opener closer : Token} {inner ts : List Token},
      opener.type.closer? = some closer.type → BalancedRun (inner.map .token) →
      BalancedRun (ts.map .token) → BalancedRun ((opener :: (inner ++ closer :: ts)).map .token) := by
    intro opener closer inner ts hpair hinner hts
    simpa using BalancedRun.group hpair hinner hts
  induction h with
  | nil => exact .nil
  | single hopens hcloses _ ih =>
      refine .inner ?_ ih
      rintro _ ⟨rfl⟩
      exact ⟨hopens, hcloses⟩
  | block hpartner _ _ ihinner ih => exact hgroup (TokenType.closer?_of_partner? hpartner) ihinner ih
  | call hname hparen _ _ ihinner ih => exact hgroup (by rw [hname, hparen]; rfl) ihinner ih

end MakeUp

/-- Tokens whose brackets match make up values. -/
theorem exists_makeUp {us : List Value} (h : BalancedRun us) (hflat : Flat us) :
    ∃ vs, MakeUp (letters us) vs := by
  induction h with
  | nil => exact ⟨[], .nil⟩
  | @inner v vs hv _ ih =>
      obtain ⟨⟨t, rfl⟩, hvs⟩ := (flat_cons _ _).mp hflat
      obtain ⟨ws, hws⟩ := ih hvs
      obtain ⟨hopens, hcloses⟩ := hv t rfl
      exact ⟨_, .single hopens hcloses hws⟩
  | @group opener closer us vs hpair _ _ ihus ihvs =>
      simp only [flat_cons, flat_append] at hflat
      obtain ⟨us', hus'⟩ := ihus hflat.2.1
      obtain ⟨vs', hvs'⟩ := ihvs hflat.2.2.2
      simp only [letters_token, letters_append, List.cons_append, List.nil_append]
      rcases TokenType.closer?_cases hpair with hpartner | ⟨hname, hparen⟩
      · exact ⟨_, .block hpartner hus' hvs'⟩
      · exact ⟨_, .call hname hparen hus' hvs'⟩

/-! ## What is neither opened nor closed -/

/-- The values are tokens that neither open nor close a group. -/
def Loose (us : List Value) : Prop :=
  ∀ v ∈ us, ∃ t, v = .token t ∧ t.type.closer? = none ∧ t.type.isCloser = false

namespace Loose

variable {us vs : List Value}

theorem nil : Loose [] := by
  simp [Loose]

theorem append (hus : Loose us) (hvs : Loose vs) :
    Loose (us ++ vs) :=
  List.forall_mem_append.mpr ⟨hus, hvs⟩

theorem typed {t : Token} {type : TokenType} (ht : t.type = type) (hopens : type.closer? = none)
    (hcloses : type.isCloser = false) :
    Loose [.token t] := by
  intro v hv
  rw [List.mem_singleton.mp hv]
  exact ⟨t, rfl, ht ▸ hopens, ht ▸ hcloses⟩

theorem delim {t : Token} {text : String} (ht : t.isDelim text = true) :
    Loose [.token t] := by
  have htype : t.type = .delim ∧ t.text = text := by simpa [Token.isDelim] using ht
  exact typed htype.1 rfl rfl

theorem name {t : Token} (ht : (Value.token t).isName = true) :
    Loose [.token t] := by
  rcases Bool.or_eq_true_iff.mp ht with hident | hstar
  · exact typed (beq_iff_eq.mp hident) rfl rfl
  · exact delim hstar

theorem flat (h : Loose us) :
    Flat us := by
  intro v hv
  obtain ⟨t, rfl, _⟩ := h v hv
  exact ⟨t, rfl⟩

theorem makeUp (h : Loose us) :
    MakeUp (letters us) us := by
  induction us with
  | nil => exact .nil
  | cons v us ih =>
      obtain ⟨⟨t, rfl, hopens, hcloses⟩, hus⟩ := List.forall_mem_cons.mp h
      exact .single hopens hcloses (ih hus)

theorem blanks (h : AllBlank us) :
    Loose us := by
  intro v hv
  have hblank := h v hv
  cases v with
  | token t =>
      have ht : t.type = .whitespace := beq_iff_eq.mp hblank
      exact ⟨t, rfl, by rw [ht]; rfl, by rw [ht]; rfl⟩
  | _ => cases hblank

theorem qualifier {q : Option Qualifier} (hq : ∀ p ∈ q, p.Proper) :
    Loose (qualifierYield q) := by
  obtain _ | ⟨_ | name, bar⟩ := q
  · exact nil
  · exact delim (hq _ rfl).bar
  · exact append (Loose.name ((hq _ rfl).name name rfl)) (delim (hq _ rfl).bar)

theorem typeSelector {t : TypeSelector} (ht : t.Proper) :
    Loose t.yield := by
  cases t with
  | named q ident => exact append (qualifier ht.1) (typed ht.2 rfl rfl)
  | universal q star => exact append (qualifier ht.1) (delim ht.2)

theorem matcher {m : Matcher} (hm : m.Proper) :
    Loose m.yield := by
  obtain ⟨_ | t, equals⟩ := m
  · exact delim hm.equals
  · exact append (typed (hm.sign t rfl).1 rfl rfl) (delim hm.equals)

theorem combinator {kind : Combinator} {tokens : List Token} (h : kind.WrittenAs tokens us) :
    Loose us := by
  cases h with
  | blank hblanks _ => exact blanks hblanks
  | sign _ ht hbefore hbehind => exact append (blanks hbefore) (append (delim ht) (blanks hbehind))
  | column ht hu hbefore hbehind =>
      exact append (blanks hbefore) (append (delim ht) (append (delim hu) (blanks hbehind)))

end Loose

/-- An attribute ends with the only bracket behind its first one. -/
theorem Attribute.WrittenBehind.loose {a : Attribute} {us : List Value} (ha : a.WrittenBehind us) :
    ∃ inner closer, us = inner ++ [.token closer] ∧ closer.type = .closeBracket ∧ Loose inner := by
  cases ha with
  | @plain _ _ closer _ before behind hbefore hq hname hbehind hcloser =>
      have hinner := (Loose.blanks hbefore).append ((Loose.qualifier hq).append
        ((Loose.typed hname rfl rfl).append (Loose.blanks hbehind)))
      exact ⟨_, closer, by simp, hcloser, hinner⟩
  | @valued _ _ value closer _ _ word _ _ _ _ _ hbefore hq hname hbehind hm hblanks hvalue hblanks'
      hword hblanks'' hcloser =>
      have hvalue' : Loose [.token value] := by
        rcases hvalue with h | h <;> exact .typed h rfl rfl
      have hword' : Loose (word.toList.map .token) := by
        cases word with
        | none => exact .nil
        | some t => exact .typed (hword t rfl).1 rfl rfl
      have hinner := (Loose.blanks hbefore).append ((Loose.qualifier hq).append
        ((Loose.typed hname rfl rfl).append ((Loose.blanks hbehind).append ((Loose.matcher hm).append
          ((Loose.blanks hblanks).append (hvalue'.append ((Loose.blanks hblanks').append
            (hword'.append (Loose.blanks hblanks'')))))))))
      exact ⟨_, closer, by simp, hcloser, hinner⟩

/-! ## Trees with other arguments -/

/-- The pseudo-class with another argument. -/
def PseudoClass.mapArgument (f : List Value → List Value) (p : PseudoClass) : PseudoClass :=
  { p with argument := p.argument.map f }

/-- The condition with another argument. -/
def Subclass.mapArgument (f : List Value → List Value) : Subclass → Subclass
  | .pseudo p => .pseudo (p.mapArgument f)
  | p => p

/-- The pseudo-element with other arguments. -/
def PseudoElement.mapArguments (f : List Value → List Value) (e : PseudoElement) : PseudoElement :=
  { e with element := e.element.mapArgument f, classes := e.classes.map (·.mapArgument f) }

/-- The compound with other arguments. -/
def Compound.mapArguments (f : List Value → List Value) (k : Compound) : Compound :=
  { k with
    subclasses := k.subclasses.map (·.mapArgument f)
    pseudos := k.pseudos.map (·.mapArguments f) }

/-- The selector with other arguments. -/
def ComplexSelector.mapArguments (f : List Value → List Value) (s : ComplexSelector) :
    ComplexSelector :=
  s.map fun part => { part with compound := part.compound.mapArguments f }

/-- The selector list with other arguments. -/
def SelectorList.mapArguments (f : List Value → List Value) (list : SelectorList) : SelectorList :=
  list.map (ComplexSelector.mapArguments f)

/-- The values laid flat. -/
def layFlat (vs : List Value) : List Value :=
  (tokensOf vs).map .token

/-! ## From groups to tokens -/

theorem spread_all {α : Type} {W : α → List Value → Prop} {f : α → α}
    (hW : ∀ a vs ts, W a vs → MakeUp ts vs → W (f a) (ts.map .token)) {as : List α} {vs : List Value}
    {ts : List Token} (h : WrittenAll W as vs) (hts : MakeUp ts vs) :
    WrittenAll W (as.map f) (ts.map .token) := by
  induction h generalizing ts with
  | nil =>
      cases hts
      exact .nil
  | cons ha _ ih =>
      obtain ⟨ts₁, ts₂, rfl, h₁, h₂⟩ := hts.split
      rw [List.map_append, List.map_cons]
      exact .cons (hW _ _ _ ha h₁) (ih h₂)

theorem spread_attribute {a : Attribute} {vs : List Value} {ts : List Token} (ha : a.WrittenAs vs)
    (hts : MakeUp ts vs) :
    a.WrittenAs (ts.map .token) := by
  cases ha with
  | flat hopener _ =>
      obtain ⟨_, _, hopens, _⟩ := hts.cons_token
      rw [hopener] at hopens
      cases hopens
  | @block contents us vs closer hopener ha hsplit =>
      obtain ⟨inner, c, ts', hc, rfl, _, hinner, hnil⟩ := hts.cons_block
      cases hc
      cases hnil
      obtain ⟨us', c', rfl, hc', hloose⟩ := ha.loose
      -- A group holds no closer of its own, so the attribute ends where the block ends.
      obtain rfl | ⟨vs, v, rfl⟩ := List.eq_nil_or_concat vs
      · rw [List.append_nil] at hsplit
        obtain ⟨rfl, hlast⟩ := List.append_inj' hsplit rfl
        cases hlast
        have hmap := hinner.map_of_flat hloose.flat
        simpa [hmap] using Attribute.WrittenAs.flat hopener ha
      · rw [List.concat_eq_append, ← List.append_assoc] at hsplit
        obtain ⟨rfl, _⟩ := List.append_inj' hsplit rfl
        have hcloses := hinner.not_closer (t := c') (by simp)
        rw [hc'] at hcloses
        cases hcloses

theorem spread_pseudoClass {p : PseudoClass} {vs : List Value} {ts : List Token} (hp : p.WrittenAs vs)
    (hts : MakeUp ts vs) :
    (p.mapArgument layFlat).WrittenAs (ts.map .token) := by
  cases hp with
  | plain hcolon hname =>
      obtain ⟨ts, rfl, _, _, hts⟩ := hts.cons_token
      obtain ⟨ts, rfl, _, _, hts⟩ := hts.cons_token
      cases hts
      exact .plain hcolon hname
  | function _ hname _ _ =>
      obtain ⟨ts, rfl, _, _, hts⟩ := hts.cons_token
      obtain ⟨ts, rfl, hopens, _, hts⟩ := hts.cons_token
      rw [hname] at hopens
      cases hopens
  | @call colon name closer args commas hcolon =>
      obtain ⟨ts, rfl, _, _, hts⟩ := hts.cons_token
      obtain ⟨inner, c, rest, hc, rfl, hname, hparen, hinner, hrest⟩ := hts.cons_call
      cases hc
      cases hrest
      have hflat : layFlat (flattenArguments args commas) = inner.map .token := by
        rw [layFlat, hinner.tokensOf_eq]
      have hwritten := PseudoClass.WrittenAs.function hcolon hname hinner.balancedRun hparen
      simpa [PseudoClass.mapArgument, hflat] using hwritten

theorem spread_subclass {p : Subclass} {vs : List Value} {ts : List Token} (hp : p.WrittenAs vs)
    (hts : MakeUp ts vs) :
    (p.mapArgument layFlat).WrittenAs (ts.map .token) := by
  cases hp with
  | id hhash =>
      obtain ⟨ts, rfl, _, _, hts⟩ := hts.cons_token
      cases hts
      exact .id hhash
  | className hdot hident =>
      obtain ⟨ts, rfl, _, _, hts⟩ := hts.cons_token
      obtain ⟨ts, rfl, _, _, hts⟩ := hts.cons_token
      cases hts
      exact .className hdot hident
  | nesting hampersand =>
      obtain ⟨ts, rfl, _, _, hts⟩ := hts.cons_token
      cases hts
      exact .nesting hampersand
  | attr ha => exact .attr (spread_attribute ha hts)
  | pseudo hp => exact .pseudo (spread_pseudoClass hp hts)

theorem spread_pseudoElement {e : PseudoElement} {vs : List Value} {ts : List Token}
    (he : e.WrittenAs vs) (hts : MakeUp ts vs) :
    (e.mapArguments layFlat).WrittenAs (ts.map .token) := by
  cases he with
  | intro hcolon helement hclasses =>
      obtain ⟨ts, rfl, _, _, hts⟩ := hts.cons_token
      obtain ⟨ts₁, ts₂, rfl, h₁, h₂⟩ := hts.split
      have hall : (e.mapArguments layFlat).WrittenAs _ :=
        .intro hcolon (spread_pseudoClass helement h₁)
          (spread_all (fun _ _ _ => spread_pseudoClass) hclasses h₂)
      simpa [PseudoElement.mapArguments] using hall

theorem spread_compound {k : Compound} {vs : List Value} {ts : List Token} (hk : k.WrittenAs vs)
    (hts : MakeUp ts vs) :
    (k.mapArguments layFlat).WrittenAs (ts.map .token) := by
  cases hk with
  | @intro us vs htype hps hes hempty =>
      obtain ⟨ts₁, ts', rfl, h₁, h'⟩ := hts.split
      obtain ⟨ts₂, ts₃, rfl, h₂, h₃⟩ := h'.split
      have hyield : ts₁.map .token = (k.type.map TypeSelector.yield).getD [] := by
        refine h₁.map_of_flat ?_
        cases hcase : k.type with
        | none => exact flat_nil
        | some t => exact (Loose.typeSelector (htype t hcase)).flat
      have hall : (k.mapArguments layFlat).WrittenAs _ :=
        .intro htype (spread_all (fun _ _ _ => spread_subclass) hps h₂)
          (spread_all (fun _ _ _ => spread_pseudoElement) hes h₃)
          (by simpa [Compound.isEmpty, Compound.mapArguments] using hempty)
      rw [List.map_append, List.map_append, hyield]
      exact hall

theorem spread_complexSelector {s : ComplexSelector} {vs : List Value} {ts : List Token}
    (hs : s.WrittenAs vs) (hts : MakeUp ts vs) :
    (s.mapArguments layFlat).WrittenAs (ts.map .token) := by
  cases hs with
  | intro hk hps =>
      obtain ⟨ts₁, ts₂, rfl, h₁, h₂⟩ := hts.split
      rw [List.map_append]
      refine .intro (spread_compound hk h₁) (spread_all ?_ hps h₂)
      rintro p _ ts ⟨hkind, hk⟩ hts
      obtain ⟨ts₁, ts₂, rfl, h₁, h₂⟩ := hts.split
      rw [List.map_append, h₁.map_of_flat (Loose.combinator hkind).flat]
      exact .intro hkind (spread_compound hk h₂)

/-- What groups write, their tokens write with the arguments laid flat. -/
theorem spread_selectorList {list : SelectorList} {vs : List Value} {ts : List Token}
    (h : list.WrittenAs vs) (hts : MakeUp ts vs) :
    (list.mapArguments layFlat).WrittenAs (ts.map .token) := by
  induction h generalizing ts with
  | single hbefore hs hbehind =>
      obtain ⟨ts₁, ts', rfl, h₁, h'⟩ := hts.split
      obtain ⟨ts₂, ts₃, rfl, h₂, h₃⟩ := h'.split
      rw [List.map_append, List.map_append, h₁.map_of_flat (Loose.blanks hbefore).flat,
        h₃.map_of_flat (Loose.blanks hbehind).flat]
      exact .single hbefore (spread_complexSelector hs h₂) hbehind
  | cons hbefore hs hbehind hcomma _ ih =>
      obtain ⟨ts₁, ts', rfl, h₁, h'⟩ := hts.split
      obtain ⟨ts₂, ts'', rfl, h₂, h''⟩ := h'.split
      obtain ⟨ts₃, tail, rfl, h₃, htail⟩ := h''.split
      obtain ⟨ts₄, rfl, _, _, h₄⟩ := htail.cons_token
      simp only [List.map_append, List.map_cons]
      rw [h₁.map_of_flat (Loose.blanks hbefore).flat, h₃.map_of_flat (Loose.blanks hbehind).flat]
      exact .cons hbefore (spread_complexSelector hs h₂) hbehind hcomma (ih h₄)

/-! ## From tokens to groups -/

theorem regroup_all {α : Type} {W : α → List Value → Prop}
    (hW : ∀ a us, W a us → Flat us → ∃ b vs, MakeUp (letters us) vs ∧ W b vs) {as : List α}
    {us : List Value} (h : WrittenAll W as us) (hflat : Flat us) :
    ∃ bs vs, MakeUp (letters us) vs ∧ WrittenAll W bs vs ∧ bs.isEmpty = as.isEmpty := by
  induction h with
  | nil => exact ⟨[], [], .nil, .nil, rfl⟩
  | cons ha _ ih =>
      rw [flat_append] at hflat
      obtain ⟨b, vs, hvs, hb⟩ := hW _ _ ha hflat.1
      obtain ⟨bs, ws, hws, hbs, _⟩ := ih hflat.2
      refine ⟨b :: bs, vs ++ ws, ?_, .cons hb hbs, rfl⟩
      rw [letters_append]
      exact hvs.append hws

theorem regroup_attribute {a : Attribute} {us : List Value} (ha : a.WrittenAs us) (hflat : Flat us) :
    ∃ b : Attribute, ∃ vs, MakeUp (letters us) vs ∧ b.WrittenAs vs := by
  cases ha with
  | block _ _ _ =>
      obtain ⟨⟨t, ht⟩, _⟩ := (flat_cons _ _).mp hflat
      cases ht
  | flat hopener ha =>
      obtain ⟨inner, closer, rfl, hcloser, hloose⟩ := ha.loose
      refine ⟨a, _, ?_, .block hopener ha (List.append_nil _).symm⟩
      simp only [letters_token, letters_append, letters_nil, List.cons_append, List.nil_append]
      refine .block ?_ hloose.makeUp .nil
      rw [hopener, hcloser]
      rfl

theorem regroup_pseudoClass {p : PseudoClass} {us : List Value} (hp : p.WrittenAs us)
    (hflat : Flat us) :
    ∃ q : PseudoClass, ∃ vs, MakeUp (letters us) vs ∧ q.WrittenAs vs := by
  cases hp with
  | plain hcolon hname =>
      have hloose := (Loose.typed hcolon rfl rfl).append (Loose.typed hname rfl rfl)
      exact ⟨_, _, hloose.makeUp, .plain hcolon hname⟩
  | @function colon name closer argument hcolon hname hrun hcloser =>
      simp only [flat_cons, flat_append] at hflat
      obtain ⟨inner, hinner⟩ := exists_makeUp hrun hflat.2.2.1
      obtain ⟨args, commas, hcall, _⟩ := exists_callOf name inner closer
      refine ⟨_, [.token colon, .call name args commas (some closer)], ?_, .call hcolon⟩
      simp only [letters_token, letters_append, letters_nil, List.cons_append, List.nil_append]
      refine .single (by rw [hcolon]; rfl) (by rw [hcolon]; rfl) ?_
      rw [← hcall]
      exact .call hname hcloser hinner .nil
  | call _ =>
      obtain ⟨⟨t, ht⟩, _⟩ := (flat_cons _ _).mp ((flat_cons _ _).mp hflat).2
      cases ht

theorem regroup_subclass {p : Subclass} {us : List Value} (hp : p.WrittenAs us) (hflat : Flat us) :
    ∃ q : Subclass, ∃ vs, MakeUp (letters us) vs ∧ q.WrittenAs vs := by
  cases hp with
  | @id hash hhash =>
      have htype : hash.type = .hash := beq_iff_eq.mp (Bool.and_eq_true_iff.mp hhash).1
      exact ⟨_, _, (Loose.typed htype rfl rfl).makeUp, .id hhash⟩
  | className hdot hident =>
      exact ⟨_, _, ((Loose.delim hdot).append (.typed hident rfl rfl)).makeUp, .className hdot hident⟩
  | nesting hampersand => exact ⟨_, _, (Loose.delim hampersand).makeUp, .nesting hampersand⟩
  | attr ha =>
      obtain ⟨b, vs, hvs, hb⟩ := regroup_attribute ha hflat
      exact ⟨_, vs, hvs, .attr hb⟩
  | pseudo hp =>
      obtain ⟨q, vs, hvs, hq⟩ := regroup_pseudoClass hp hflat
      exact ⟨_, vs, hvs, .pseudo hq⟩

theorem regroup_pseudoElement {e : PseudoElement} {us : List Value} (he : e.WrittenAs us)
    (hflat : Flat us) :
    ∃ q : PseudoElement, ∃ vs, MakeUp (letters us) vs ∧ q.WrittenAs vs := by
  cases he with
  | intro hcolon helement hclasses =>
      simp only [flat_cons, flat_append] at hflat
      obtain ⟨p, vs, hvs, hp⟩ := regroup_pseudoClass helement hflat.2.1
      obtain ⟨ps, ws, hws, hps, _⟩ := regroup_all (fun _ _ => regroup_pseudoClass) hclasses hflat.2.2
      have hall : PseudoElement.WrittenAs ⟨e.colon, p, ps⟩ (.token e.colon :: (vs ++ ws)) :=
        .intro hcolon hp hps
      refine ⟨_, _, ?_, hall⟩
      rw [letters_token, letters_append]
      exact (Loose.typed hcolon rfl rfl).makeUp.append (hvs.append hws)

theorem regroup_compound {k : Compound} {us : List Value} (hk : k.WrittenAs us) (hflat : Flat us) :
    ∃ j : Compound, ∃ vs, MakeUp (letters us) vs ∧ j.WrittenAs vs := by
  cases hk with
  | intro htype hps hes hempty =>
      simp only [flat_append] at hflat
      obtain ⟨ps, vs, hvs, hps', hpsEmpty⟩ := regroup_all (fun _ _ => regroup_subclass) hps hflat.2.1
      obtain ⟨es, ws, hws, hes', hesEmpty⟩ :=
        regroup_all (fun _ _ => regroup_pseudoElement) hes hflat.2.2
      have hloose : Loose ((k.type.map TypeSelector.yield).getD []) := by
        cases hcase : k.type with
        | none => exact .nil
        | some t => exact .typeSelector (htype t hcase)
      have hnonempty : Compound.isEmpty ⟨k.type, ps, es⟩ = false := by
        simpa [Compound.isEmpty, hpsEmpty, hesEmpty] using hempty
      refine ⟨⟨k.type, ps, es⟩, _, ?_, .intro htype hps' hes' hnonempty⟩
      rw [letters_append, letters_append]
      exact hloose.makeUp.append (hvs.append hws)

theorem regroup_complexSelector {s : ComplexSelector} {us : List Value} (hs : s.WrittenAs us)
    (hflat : Flat us) :
    ∃ s' : ComplexSelector, ∃ vs, MakeUp (letters us) vs ∧ s'.WrittenAs vs := by
  have hpart : ∀ (p : SelectorPart) (us : List Value), p.WrittenAs us → Flat us →
      ∃ q : SelectorPart, ∃ vs, MakeUp (letters us) vs ∧ q.WrittenAs vs := by
    rintro p _ ⟨hkind, hk⟩ hflat
    rw [flat_append] at hflat
    obtain ⟨j, vs, hvs, hj⟩ := regroup_compound hk hflat.2
    have hall : SelectorPart.WrittenAs ⟨p.combinator, p.tokens, j⟩ _ := .intro hkind hj
    refine ⟨_, _, ?_, hall⟩
    rw [letters_append]
    exact (Loose.combinator hkind).makeUp.append hvs
  cases hs with
  | intro hk hps =>
      rw [flat_append] at hflat
      obtain ⟨j, vs, hvs, hj⟩ := regroup_compound hk hflat.1
      obtain ⟨ps, ws, hws, hps', _⟩ := regroup_all hpart hps hflat.2
      refine ⟨_, _, ?_, .intro hj hps'⟩
      rw [letters_append]
      exact hvs.append hws

/-- What tokens write, their groups write up to the arguments. -/
theorem regroup_selectorList {list : SelectorList} {us : List Value} (h : list.WrittenAs us)
    (hflat : Flat us) :
    ∃ list' : SelectorList, ∃ vs, MakeUp (letters us) vs ∧ list'.WrittenAs vs := by
  induction h with
  | single hbefore hs hbehind =>
      simp only [flat_append] at hflat
      obtain ⟨s, vs, hvs, hs'⟩ := regroup_complexSelector hs hflat.2.1
      refine ⟨_, _, ?_, .single hbefore hs' hbehind⟩
      rw [letters_append, letters_append]
      exact (Loose.blanks hbefore).makeUp.append (hvs.append (Loose.blanks hbehind).makeUp)
  | cons hbefore hs hbehind hcomma _ ih =>
      simp only [flat_append, flat_cons] at hflat
      obtain ⟨s, vs, hvs, hs'⟩ := regroup_complexSelector hs hflat.2.1
      obtain ⟨list, ws, hws, hlist⟩ := ih hflat.2.2.2.2
      refine ⟨_, _, ?_, .cons hbefore hs' hbehind hcomma hlist⟩
      rw [letters_append, letters_append, letters_append, letters_token]
      have htail := (Loose.typed hcomma rfl rfl).makeUp.append hws
      exact (Loose.blanks hbefore).makeUp.append
        (hvs.append ((Loose.blanks hbehind).makeUp.append htail))

/-! ## Faults of selectors -/

namespace Scan

variable {α β : Type} {x : Scan α} {f : α → Scan β}

/-- The scan stops with nothing but malformed input. -/
def Refuses (x : Scan α) : Prop :=
  ∀ c d e, x c = .error d e → d.kind = .malformed

namespace Refuses

theorem pure (a : α) :
    Refuses (Pure.pure a) := by
  rintro _ _ _ ⟨⟩

theorem look (g : Cursor → α) :
    Refuses (Scan.look g) := by
  rintro _ _ _ ⟨⟩

theorem next :
    Refuses Scan.next := by
  rintro _ _ _ ⟨⟩

theorem skipWhitespace :
    Refuses Scan.skipWhitespace := by
  rintro _ _ _ ⟨⟩

theorem failAt {n : Nat} {cause : Cause} (h : cause.kind = .malformed) :
    Refuses (Scan.failAt n cause : Scan α) := by
  rintro _ _ _ ⟨⟩
  exact h

theorem throw {d : Diagnostic} (h : d.kind = .malformed) :
    Refuses (throw d : Scan α) := by
  rintro _ _ _ ⟨⟩
  exact h

theorem bind (hx : Refuses x) (hf : ∀ a, Refuses (f a)) :
    Refuses (x >>= f) := by
  intro c d e h
  cases hrun : x c with
  | ok a c' =>
      rw [bind_ok hrun] at h
      exact hf a c' d e h
  | error d' c' =>
      rw [bind_error hrun] at h
      cases h
      exact hx c d e hrun

theorem consume (type : TokenType) (what : String) :
    Refuses (Scan.consume type what) := by
  intro c d e h
  unfold Scan.consume at h
  split at h
  · split at h
    · cases h
    · cases h
      rfl
  · cases h
    rfl

theorem consumeDelim (text what : String) :
    Refuses (Scan.consumeDelim text what) := by
  intro c d e h
  unfold Scan.consumeDelim at h
  split at h
  · split at h
    · cases h
    · cases h
      rfl
  · cases h
    rfl

theorem inside (vs : List Value) (hx : Refuses x) :
    Refuses (Scan.inside vs x) := by
  intro c d e h
  unfold Scan.inside at h
  split at h
  · cases h
  · next hrun =>
      cases h
      exact hx _ _ _ hrun

theorem ite {p : Prop} [Decidable p] {y : Scan α} (hx : Refuses x) (hy : Refuses y) :
    Refuses (if p then x else y) := by
  split
  · exact hx
  · exact hy

end Refuses

theorem refuses_qualifier : Refuses qualifier := by
  unfold qualifier
  refine .bind (.look _) fun _ => .bind (.look _) fun _ => .bind (.look _) fun _ => .ite ?_ ?_
  · exact .bind .next fun _ => .bind .next fun _ => .pure _
  · exact .bind (.look _) fun _ => .ite (.bind .next fun _ => .pure _) (.pure _)

theorem refuses_typeSelector : Refuses typeSelector := by
  unfold typeSelector
  refine .bind refuses_qualifier fun q => .bind (.look _) fun o => ?_
  cases o with
  | none => exact .ite (.failAt rfl) (.pure _)
  | some t =>
      refine .ite (.bind .next fun _ => .pure _) (.ite (.bind .next fun _ => .pure _) ?_)
      exact .ite (.failAt rfl) (.pure _)

theorem refuses_matcher : Refuses matcher := by
  unfold matcher
  refine .bind (.look _) fun o => ?_
  cases o with
  | none => exact .pure _
  | some t =>
      refine .ite (.ite ?_ ?_) (.pure _)
      · exact .bind .next fun _ => .bind (.consumeDelim _ _) fun _ => .pure _
      · exact .ite (.bind .next fun _ => .pure _) (.pure _)

theorem refuses_attributeValue : Refuses attributeValue := by
  unfold attributeValue
  have hend : ∀ {value : Token} {o : Option Token},
      Refuses (skipWhitespace >>= fun _ => (pure (value, o) : Scan (Token × Option Token))) :=
    .bind .skipWhitespace fun _ => .pure _
  refine .bind .skipWhitespace fun _ => .bind (.look _) fun o => ?_
  cases o with
  | none => exact .failAt rfl
  | some value =>
      refine .ite (.bind .next fun _ => .bind .skipWhitespace fun _ => .bind (.look _) fun o => ?_)
        (.failAt rfl)
      cases o with
      | none => exact .bind (.pure _) fun _ => hend
      | some t =>
          refine .ite (.ite ?_ ?_) (.bind (.pure _) fun _ => hend)
          · exact .bind .next fun _ => .bind (.pure _) fun _ => hend
          · exact .bind (.failAt rfl) fun _ => hend

theorem refuses_attributeSelector (opener : Token) : Refuses (attributeSelector opener) := by
  unfold attributeSelector
  refine .bind .skipWhitespace fun _ => .bind refuses_qualifier fun q => .bind (.consume _ _) fun _ => ?_
  refine .bind .skipWhitespace fun _ => .bind refuses_matcher fun m => .ite ?_ ?_
  · exact .bind refuses_attributeValue fun _ => .bind (.pure _) fun _ =>
      .bind (.consume _ _) fun _ => .pure _
  · exact .bind (.pure _) fun _ => .bind (.consume _ _) fun _ => .pure _

theorem refuses_balancedFrom (anyValue : Bool) (n : Nat) (due : List TokenType) (read : List Value) :
    Refuses (balancedFrom anyValue n due read) := by
  induction n generalizing due read with
  | zero => exact .pure _
  | succ n ih =>
      have hmore : ∀ due v, Refuses (Scan.next >>= fun _ => balancedFrom anyValue n due (v :: read)) :=
        fun due v => .bind .next fun _ => ih due (v :: read)
      rw [balancedFrom]
      refine .bind (.look _) fun o => ?_
      cases o with
      | none => exact .pure _
      | some v =>
          cases v with
          | token t =>
              refine .ite (hmore _ _) (.ite ?_ (.ite (.pure _) (hmore _ _)))
              cases due with
              | nil => exact .pure _
              | cons expected due => exact .ite (hmore _ _) (.failAt rfl)
          | _ => exact hmore _ _

theorem refuses_pseudoClass : Refuses pseudoClass := by
  unfold pseudoClass
  refine .bind (.consume _ _) fun colon => .bind (.look _) fun o => ?_
  cases o with
  | none => exact .failAt rfl
  | some v =>
      cases v with
      | token t =>
          refine .ite (.bind .next fun _ => .pure _) (.ite (.bind .next fun _ => ?_) (.failAt rfl))
          exact .bind (.bind (.look _) fun _ => refuses_balancedFrom _ _ _ _) fun _ =>
            .bind (.consume _ _) fun _ => .pure _
      | call name args commas closer =>
          exact .ite (.bind .next fun _ => .pure _) (.throw rfl)
      | _ => exact .failAt rfl

theorem refuses_subclass : Refuses subclass := by
  unfold subclass
  refine .bind (.look _) fun o => ?_
  cases o with
  | none => exact .pure _
  | some v =>
      cases v with
      | token t =>
          refine .ite (.ite (.bind .next fun _ => .pure _) (.failAt rfl)) ?_
          refine .ite (.bind .next fun _ => .bind (.consume _ _) fun _ => .pure _) ?_
          refine .ite (.bind .next fun _ => .pure _) ?_
          refine .ite (.bind .next fun _ => .bind (refuses_attributeSelector t) fun _ => .pure _) ?_
          exact .bind (.look _) fun _ => .ite (.bind refuses_pseudoClass fun _ => .pure _) (.pure _)
      | block opener contents closer =>
          refine .ite ?_ (.pure _)
          cases closer with
          | none => exact .throw rfl
          | some closer =>
              exact .bind .next fun _ =>
                .bind (.inside _ (refuses_attributeSelector opener)) fun _ => .pure _
      | _ => exact .pure _

theorem refuses_compound : Refuses compound := by
  have hsubclasses : ∀ n, Refuses (subclasses n) := by
    intro n
    induction n with
    | zero => exact .pure _
    | succ n ih =>
        rw [subclasses]
        refine .bind refuses_subclass fun o => ?_
        cases o with
        | none => exact .pure _
        | some p => exact .bind ih fun _ => .pure _
  have hclasses : ∀ n, Refuses (pseudoClasses n) := by
    intro n
    induction n with
    | zero => exact .pure _
    | succ n ih =>
        rw [pseudoClasses]
        refine .bind (.look _) fun _ => .ite ?_ (.pure _)
        exact .bind refuses_pseudoClass fun _ => .bind ih fun _ => .pure _
  have helements : ∀ n, Refuses (pseudoElements n) := by
    intro n
    induction n with
    | zero => exact .pure _
    | succ n ih =>
        rw [pseudoElements]
        refine .bind (.look _) fun _ => .ite (.bind (.consume _ _) fun _ => ?_) (.pure _)
        exact .bind refuses_pseudoClass fun _ => .bind (.look _) fun _ =>
          .bind (hclasses _) fun _ => .bind ih fun _ => .pure _
  unfold compound
  refine .bind refuses_typeSelector fun _ => .bind (.look _) fun _ => .bind (hsubclasses _) fun _ => ?_
  refine .bind (.look _) fun _ => .bind (helements _) fun _ => .ite ?_ (.pure _)
  exact .bind (.look _) fun _ => .failAt rfl

theorem refuses_combinator (afterBlank : Bool) : Refuses (combinator afterBlank) := by
  unfold combinator
  refine .bind (.look _) fun o => ?_
  cases o with
  | none => exact .pure _
  | some t =>
      refine .ite ?_ (.pure _)
      split
      · exact .bind .next fun _ => .pure _
      · exact .bind .next fun _ => .pure _
      · exact .bind .next fun _ => .pure _
      · refine .bind (.look _) fun _ => .ite (.pure _) ?_
        exact .bind .next fun _ => .bind (.consumeDelim _ _) fun _ => .pure _
      · exact .pure _

theorem refuses_parts (n : Nat) : Refuses (parts n) := by
  induction n with
  | zero => exact .pure _
  | succ n ih =>
      rw [parts]
      refine .bind (.look _) fun _ => .ite (.pure _) (.bind (.look _) fun _ => ?_)
      refine .bind .skipWhitespace fun _ => .bind (refuses_combinator _) fun _ => .ite ?_ ?_
      · exact .bind (.look _) fun _ => .failAt rfl
      · refine .bind .skipWhitespace fun _ => .bind (.look _) fun _ => .ite (.failAt rfl) ?_
        exact .bind refuses_compound fun _ => .bind ih fun _ => .pure _

theorem refuses_complexSelector : Refuses complexSelector := by
  unfold complexSelector
  exact .bind refuses_compound fun _ => .bind (.look _) fun _ => .bind (refuses_parts _) fun _ => .pure _

end Scan

namespace Selector

/-- A prelude that is not read is malformed. -/
theorem kind_of_parse {vs : List Value} {d : Diagnostic} (h : parse vs = .error d) :
    d.kind = .malformed := by
  have hsegment : ∀ {s : Segment}, parseSegment s = .error d → d.kind = .malformed := by
    intro s hs
    unfold parseSegment at hs
    split at hs
    · cases hs
      rfl
    · split at hs
      · cases hs
      · next hrun =>
          cases hs
          exact Scan.refuses_complexSelector _ _ _ hrun
  obtain ⟨s, -, hs⟩ := Outcome.exists_of_mapM_error h
  exact hsegment hs

/-- Tokens whose brackets match, with no dollar sign before a name, and the groups that they are read
to are both refused as malformed, or both read: then the selectors are the same once the arguments are
laid flat. -/
theorem parse_grouped {ts : List Token} {depth : Nat} (hts : Nests depth ts) (hvar : NoVariable ts)
    {r : Reader} (hitems : r.cursor.items = ts.map fun t => .value (.token t))
    (hdepth : r.nesting + depth ≤ r.limits.nestingDepth) :
    ∃ vs, (∀ n, 1 + 3 * ts.length ≤ n → ∃ s, Read.allValues n r = .ok vs s) ∧
      ((∃ d d', parse (ts.map .token) = .error d ∧ d.kind = .malformed ∧
          parse vs = .error d' ∧ d'.kind = .malformed) ∨
        ∃ list list', parse (ts.map .token) = .ok list ∧ parse vs = .ok list' ∧
          list'.mapArguments layFlat = list) := by
  obtain ⟨vs, hvs⟩ := exists_gathered hts hvar
  have hmakeUp := hvs.makeUp
  refine ⟨vs, fun n hn => Read.allValues_of_gathered hvs hitems hdepth hn, ?_⟩
  cases hgroups : parse vs with
  | ok list' =>
      have hwritten := spread_selectorList (parse_eq_ok_iff.mp hgroups) hmakeUp
      exact .inr ⟨_, list', parse_eq_ok_iff.mpr hwritten, rfl, rfl⟩
  | error d' =>
      cases htokens : parse (ts.map .token) with
      | error d => exact .inl ⟨d, d', rfl, kind_of_parse htokens, rfl, kind_of_parse hgroups⟩
      | ok list =>
          exfalso
          obtain ⟨list', ws, hws, hlist'⟩ :=
            regroup_selectorList (parse_eq_ok_iff.mp htokens) (flat_map ts)
          rw [letters_map] at hws
          have hend : MakeUp.Stops [] := trivial
          have hsame : vs = ws := (hmakeUp.unique hws hend hend rfl).1
          rw [hsame, parse_eq_ok_iff.mpr hlist'] at hgroups
          cases hgroups

/-- The prelude `a[b]:is(c, d)`. -/
def bracketedPrelude : List Token :=
  [.bare .ident "a", .bare .openBracket "[", .bare .ident "b", .bare .closeBracket "]",
    .bare .colon ":", .bare .function "is", .bare .ident "c", .bare .comma ",",
    .bare .whitespace " ", .bare .ident "d", .bare .closeParen ")"]

theorem nests_bracketedPrelude :
    Nests 1 bracketedPrelude := by
  have hattribute : Nests 0 [.bare .ident "b"] := .single rfl rfl .nil
  have hargument : Nests 0 [.bare .ident "c", .bare .comma ",", .bare .whitespace " ",
      .bare .ident "d"] :=
    .single rfl rfl (.single rfl rfl (.single rfl rfl (.single rfl rfl .nil)))
  have hcall := @Nests.group 0 (.bare .function "is") (.bare .closeParen ")") _ _ rfl hargument
    .nil
  have hpseudo := @Nests.single _ (.bare .colon ":") _ rfl rfl hcall
  have hblock := @Nests.group 0 (.bare .openBracket "[") (.bare .closeBracket "]") _ _ rfl
    hattribute hpseudo
  exact @Nests.single _ (.bare .ident "a") _ rfl rfl hblock

/-- An attribute and a pseudo-class with two arguments are read from their groups as from their
tokens. -/
theorem parse_grouped_bracketedPrelude :
    Nests 1 bracketedPrelude ∧ NoVariable bracketedPrelude ∧
      ∃ vs list list', (∀ n, 34 ≤ n → ∃ s,
          Read.allValues n (Reader.ofTokens bracketedPrelude {}) = .ok vs s) ∧
        parse (bracketedPrelude.map .token) = .ok list ∧ parse vs = .ok list' ∧
        list'.mapArguments layFlat = list := by
  have hvar : NoVariable bracketedPrelude := by
    simp [NoVariable, bracketedPrelude, Token.bare, Token.isDelim]
  have hok : (parse (bracketedPrelude.map .token)).isOk = true := by decide +kernel
  have hitems : (Reader.ofTokens bracketedPrelude {}).cursor.items =
      bracketedPrelude.map fun t => .value (.token t) := rfl
  obtain ⟨vs, hread, hcases⟩ := parse_grouped nests_bracketedPrelude hvar hitems (by decide)
  refine ⟨nests_bracketedPrelude, hvar, vs, ?_⟩
  rcases hcases with ⟨d, _, herror, _⟩ | ⟨list, list', hlist, hlist', hsame⟩
  · rw [herror] at hok
    cases hok
  · exact ⟨list, list', hread, hlist, hlist', hsame⟩

end Selector
end Cascade
