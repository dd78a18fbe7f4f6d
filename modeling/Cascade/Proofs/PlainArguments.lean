import Cascade.Proofs.EnclosedTexts
import Cascade.Proofs.SelectorGroups

/-!
# Plain arguments

The argument of a pseudo-class is plain if its text in the source has no comments and no
backslashes, and it holds no malformed strings and addresses; around it, escapes and
comments may stand anywhere.  A plain argument can be written in both forms.

**Method.**  The text of an argument is what stands between the name of the function and
the place of its parenthesis.  The lexer is followed to the name (`exists_run`) and from
there to the parenthesis, so that the tokens of the argument are those of an enclosed
text; nothing else is asked of the source.

**Results.**
* `PseudoClass.WrittenAs.spelled`: a plain argument is spelled.
-/

namespace Cascade
open Lexer Output

/-! ## The text of an argument -/

/-- The texts before and behind a place, where the text stands at the given one. -/
def splitPlace (place : Position) : Position → List Char → List Char × List Char
  | _, [] => ([], [])
  | p, c :: cs =>
    if p = place then
      ([], c :: cs)
    else
      let split := splitPlace place (p.after c) cs
      (c :: split.1, split.2)

/-- What is left of the source behind the name of the pseudo-class, and behind its parenthesis if it
is a function. -/
def PseudoClass.behindName (source : String) (p : PseudoClass) : Input :=
  match (splitPlace p.name.position Position.start (normalize source.toList)).2 with
  | [] => ⟨[], p.name.position⟩
  | c :: cs => (token ⟨c :: cs, p.name.position⟩ c).2

/-- The text of the argument, which the parenthesis closes. -/
def PseudoClass.argumentText (source : String) (p : PseudoClass) (closer : Token) : List Char :=
  (splitPlace closer.position (p.behindName source).position (p.behindName source).chars).1

/-- The value is a malformed string or address. -/
def Value.isBad : Value → Bool
  | .token t => t.isBad
  | _ => false

/-- The argument of the pseudo-class, if it has one, holds no comment, no backslash, and no malformed
string or address. -/
def PseudoClass.PlainArgument (source : String) (p : PseudoClass) : Prop :=
  ∀ vs ∈ p.argument, ∀ closer ∈ p.closer,
    commentFreeFrom (vs.length + 1) (p.behindName source) = true ∧
      '\\' ∉ p.argumentText source closer ∧ ∀ v ∈ vs, v.isBad = false

instance (source : String) (p : PseudoClass) : Decidable (p.PlainArgument source) :=
  inferInstanceAs (Decidable (∀ vs ∈ p.argument, ∀ closer ∈ p.closer,
    commentFreeFrom (vs.length + 1) (p.behindName source) = true ∧
      '\\' ∉ p.argumentText source closer ∧ ∀ v ∈ vs, v.isBad = false))

/-- All arguments in the selectors are plain. -/
def SelectorList.PlainArguments (source : String) (list : SelectorList) : Prop :=
  ∀ s ∈ list, ∀ p ∈ s.pseudoClasses, p.PlainArgument source

instance (source : String) (list : SelectorList) : Decidable (list.PlainArguments source) :=
  inferInstanceAs (Decidable (∀ s ∈ list, ∀ p ∈ s.pseudoClasses, p.PlainArgument source))

/-- In the short form of the argument, if the pseudo-class has one, numbers end before their
neighbours. -/
def PseudoClass.NumbersApart (p : PseudoClass) : Prop :=
  ∀ vs ∈ p.argument, numbersApart (shortTokens (p.name :: (tokensOf vs ++ [closeParenToken]))) = true

instance (p : PseudoClass) : Decidable p.NumbersApart :=
  inferInstanceAs (Decidable (∀ vs ∈ p.argument,
    numbersApart (shortTokens (p.name :: (tokensOf vs ++ [closeParenToken]))) = true))

/-- So it is in all arguments in the selectors. -/
def SelectorList.NumbersApart (list : SelectorList) : Prop :=
  ∀ s ∈ list, ∀ p ∈ s.pseudoClasses, p.NumbersApart

instance (list : SelectorList) : Decidable list.NumbersApart :=
  inferInstanceAs (Decidable (∀ s ∈ list, ∀ p ∈ s.pseudoClasses, p.NumbersApart))

theorem tokensOf_tokens (ts : List Token) :
    tokensOf (ts.map .token) = ts := by
  induction ts with
  | nil => rfl
  | cons t ts ih => rw [List.map_cons, tokensOf, Value.tokens, ih, List.singleton_append]

theorem splitPlace_behind (before u rest : List Char) :
    splitPlace (Position.behind (before ++ u)) (Position.behind before) (u ++ rest) = (u, rest) := by
  induction u generalizing before with
  | nil =>
      rw [List.append_nil, List.nil_append]
      cases rest with
      | nil => rfl
      | cons c cs => rw [splitPlace, if_pos rfl]
  | cons c u ih =>
      have hne : Position.behind before ≠ Position.behind (before ++ c :: u) :=
        (behind_ne (List.cons_ne_nil c u)).symm
      have hbehind := ih (before ++ [c])
      rw [List.append_assoc, List.singleton_append] at hbehind
      rw [List.cons_append, splitPlace, if_neg hne, Position.behind_after, hbehind]

/-! ## The run up to a token -/

section Runs

variable {n : Nat} {before : List Char} {i : Input} {us ts : List Token} {t : Token}

/-- The lexer goes on behind the text that it has taken. -/
theorem exists_taken {front cs : List Char} {c : Char} {j : Input}
    (h : token ⟨c :: cs, Position.behind front⟩ c = (t, j)) :
    ∃ u, u ≠ [] ∧ c :: cs = u ++ j.chars ∧ t.position = Position.behind front ∧
      j.position = Position.behind (front ++ u) := by
  obtain ⟨u, hu, hlexeme, hplace⟩ := token_takes (i := ⟨c :: cs, Position.behind front⟩) rfl
  rw [h] at hu hlexeme hplace
  exact ⟨u, hlexeme.ne_nil, hu.chars, hplace, hu.position.trans (Position.behind_afterAll front u)⟩

/-- The first token of a run, and the run behind it. -/
theorem run_cases (hn : i.chars.length ≤ n) (hplace : i.position = Position.behind before)
    (h : tokensFrom n i = t :: ts) (ht : t.type ≠ .eof) :
    ∃ m front c cs j, i.chars = front ++ c :: cs ∧
      token ⟨c :: cs, Position.behind (before ++ front)⟩ c = (t, j) ∧ j.chars.length ≤ m ∧
      ts = tokensFrom m j := by
  obtain ⟨front, hfront, -, -⟩ := skipComments_behind i
  have hstart : (skipComments i).position = Position.behind (before ++ front) := by
    rw [hfront.position, hplace, Position.behind_afterAll]
  have hchars := hfront.chars
  cases n with
  | zero =>
      rw [tokensFrom] at h
      obtain ⟨rfl, -⟩ := List.cons.inj h
      exact absurd rfl ht
  | succ n =>
      rw [tokensFrom] at h
      generalize skipComments i = k at h hstart hchars
      obtain ⟨chars, q⟩ := k
      obtain rfl : q = Position.behind (before ++ front) := hstart
      cases chars with
      | nil =>
          obtain ⟨rfl, -⟩ := List.cons.inj h
          exact absurd rfl ht
      | cons c cs =>
          dsimp only at h hchars
          rcases hread : token ⟨c :: cs, Position.behind (before ++ front)⟩ c with ⟨a, j⟩
          rw [hread] at h
          obtain ⟨rfl, hts⟩ := List.cons.inj h
          refine ⟨n, front, c, cs, j, hchars, hread, ?_, hts.symm⟩
          obtain ⟨u, hu, hsplit, -⟩ := exists_taken hread
          have hlength := congrArg List.length (hchars.trans (congrArg (front ++ ·) hsplit))
          have hpos := List.length_pos_iff.mpr hu
          simp only [List.length_append] at hlength
          omega

/-- A token of a run is read at its place, and the run goes on behind it. -/
theorem exists_run (hn : i.chars.length ≤ n) (hplace : i.position = Position.behind before)
    (h : tokensFrom n i = us ++ t :: ts) (hus : ∀ u ∈ us, u.type ≠ .eof) (ht : t.type ≠ .eof) :
    ∃ m front c cs j, i.chars = front ++ c :: cs ∧
      token ⟨c :: cs, Position.behind (before ++ front)⟩ c = (t, j) ∧ j.chars.length ≤ m ∧
      ts = tokensFrom m j := by
  induction us generalizing n before i with
  | nil => exact run_cases hn hplace h ht
  | cons a us ih =>
      obtain ⟨ha, hus⟩ := List.forall_mem_cons.mp hus
      obtain ⟨m, front, c, cs, j, hchars, hread, hm, htail⟩ := run_cases hn hplace h ha
      obtain ⟨u, -, hsplit, -, hj⟩ := exists_taken hread
      obtain ⟨m', front', c', cs', j', hchars', hread', hm', hts⟩ := ih hm hj htail.symm hus
      refine ⟨m', front ++ (u ++ front'), c', cs', j', ?_, ?_, hm', hts⟩
      · rw [hchars, hsplit, hchars']
        simp only [List.append_assoc]
      · rw [← hread']
        simp only [List.append_assoc]

theorem tokenize_eq (source : String) :
    ∃ last, tokenize source = contents source ++ [last] := by
  obtain ⟨tokens, last, htokens, hinit, hlast, -⟩ := (covers_tokenize source).exists_last
  refine ⟨last, ?_⟩
  have hfilter : tokens.filter (fun t => t.type != .eof) = tokens := by
    rw [List.filter_eq_self]
    simpa using hinit
  rw [contents, htokens, List.filter_append, hfilter]
  simp [hlast]

/-- Only a parenthesis is read as one. -/
theorem head_of_closeParen {c : Char} {cs : List Char} (hchars : i.chars = c :: cs)
    (h : (token i c).1.type = .closeParen) :
    c = ')' := by
  obtain ⟨u, hu, hlexeme, -⟩ := token_takes hchars
  have hhead := hchars.symm.trans hu.chars
  generalize (token i c).1 = r at h hlexeme
  cases hlexeme with
  | address => split at h <;> cases h
  | string => split at h <;> cases h
  | @punctuation d type p hmem =>
      have hall : ∀ e ∈ Output.punctuation, e.2 = .closeParen → e.1 = ')' := by decide
      rw [(List.cons.inj hhead).1]
      exact hall _ hmem h
  | _ => cases h

end Runs

/-! ## Arguments are spelled -/

/-- The argument of the pseudo-class, if it has one, is made of tokens that can be written in the
form, and they are balanced up to its parenthesis. -/
def PseudoClass.Spelled (minify : Bool) (p : PseudoClass) : Prop :=
  ∀ vs ∈ p.argument, ∃ ts : List Token,
    vs = ts.map .token ∧ p.name.type = .function ∧ BalancedRun vs ∧ Writes minify p.name ts

section Spelled

variable {minify : Bool} {p : PseudoClass}

theorem PseudoClass.Spelled.legible (h : p.Spelled minify) :
    p.Legible minify := by
  intro vs hvs
  obtain ⟨ts, rfl, htype, -, hwrites⟩ := h vs hvs
  exact hwrites.legible hvs htype _ hvs

theorem PseudoClass.Spelled.enclosed (h : p.Spelled minify) :
    p.Enclosed minify := by
  intro vs hvs
  obtain ⟨ts, rfl, htype, hbalanced, hwrites⟩ := h vs hvs
  exact hwrites.enclosed hvs htype hbalanced _ hvs

end Spelled

section Plain

variable {source : String} {us behind : List Token} {p : PseudoClass} {argument : List Token}
variable {closer : Token}

theorem contents_ne_eof (source : String) :
    ∀ t ∈ contents source, t.type ≠ .eof := by
  intro t ht
  simpa [contents] using (List.mem_filter.mp ht).2

/-- The lexer is led to the name of a pseudo-class by its place. -/
theorem behindName_eq {front cs : List Char} {c : Char} {j : Input}
    (hchars : normalize source.toList = front ++ c :: cs)
    (hread : token ⟨c :: cs, Position.behind front⟩ c = (p.name, j)) :
    p.behindName source = j := by
  obtain ⟨-, -, -, hplace, -⟩ := exists_taken hread
  have hsplit := splitPlace_behind [] front (c :: cs)
  rw [List.nil_append, Position.behind_nil] at hsplit
  rw [PseudoClass.behindName, hplace, hchars, hsplit]
  exact congrArg Prod.snd hread

/-- Behind the name of a function the source has the text of the argument and a parenthesis, and the
lexer reads the argument from there. -/
theorem exists_argumentText
    (hcontents : contents source = us ++ p.name :: (argument ++ closer :: behind))
    (hname : p.name.type = .function) (hcloser : closer.type = .closeParen) :
    ∃ n front more behind,
      normalize source.toList = front ++ (p.argumentText source closer ++ ')' :: more) ∧
      p.behindName source = ⟨p.argumentText source closer ++ ')' :: more, Position.behind front⟩ ∧
      closer.position = Position.behind (front ++ p.argumentText source closer) ∧
      (p.behindName source).chars.length ≤ n ∧
      tokensFrom n (p.behindName source) = argument ++ closer :: behind ∧
      p.name.stopsBefore (p.behindName source).chars = true := by
  obtain ⟨last, htokens⟩ := tokenize_eq source
  rw [hcontents, List.append_assoc, List.cons_append] at htokens
  have hall := hcontents ▸ contents_ne_eof source
  obtain ⟨hus, hall⟩ := List.forall_mem_append.mp hall
  obtain ⟨hnameEof, hall⟩ := List.forall_mem_cons.mp hall
  obtain ⟨hargument, hall⟩ := List.forall_mem_append.mp hall
  obtain ⟨n, front, c, cs, j, hchars, hread, hn, htail⟩ :=
    exists_run (i := Input.ofChars (normalize source.toList)) (Nat.le_refl _)
      Position.behind_nil.symm htokens hus hnameEof
  obtain ⟨u, -, hsplit, -, hj⟩ := exists_taken hread
  obtain rfl : p.behindName source = j := behindName_eq hchars hread
  rw [List.append_assoc, List.cons_append] at htail
  obtain ⟨m, v, d, more, k, hv, hparen, -, -⟩ :=
    exists_run hn hj htail.symm hargument (List.forall_mem_cons.mp hall).1
  obtain rfl : d = ')' := head_of_closeParen rfl (by rw [hparen]; exact hcloser)
  obtain ⟨-, -, -, hplace, -⟩ := exists_taken hparen
  have htext : p.argumentText source closer = v := by
    rw [PseudoClass.argumentText, hplace, hj, hv, splitPlace_behind]
  have hstop := function_stopsBefore (i := ⟨c :: cs, Position.behind ([] ++ front)⟩) rfl
    (by rw [hread]; exact hname)
  rw [hread] at hstop
  refine ⟨n, front ++ u, more, _, ?_, ?_, ?_, hn, htail.symm, hstop⟩
  · rw [htext, ← hv, List.append_assoc, ← hsplit]
    exact hchars
  · rw [htext, ← hv, ← List.nil_append (front ++ u), ← List.append_assoc, ← hj]
  · rw [htext, hplace, List.nil_append]

/-- A plain argument is an enclosed text. -/
theorem exists_enclosedRun (hcontents : contents source = us ++ p.name :: (argument ++ closer :: behind))
    (hname : p.name.type = .function) (hcloser : closer.type = .closeParen)
    (hcomment : commentFreeFrom (argument.length + 1) (p.behindName source) = true)
    (hback : '\\' ∉ p.argumentText source closer) (hbad : ∀ t ∈ argument, t.isBad = false) :
    ∃ n before v more behind, EnclosedRun n before v more argument closer behind ∧
      p.name.stopsBefore (v ++ ')' :: more) = true := by
  obtain ⟨n, front, more, behind, hsource, hinput, hplace, hn, htokens, hstop⟩ :=
    exists_argumentText hcontents hname hcloser
  have hclean : Clean (p.argumentText source closer) := by
    intro c hc
    have hmem : c ∈ normalize source.toList := by
      rw [hsource]
      simp [hc]
    exact ⟨fun hslash => hback (hslash ▸ hc), isNormal_of_mem_normalize hmem⟩
  rw [hinput] at hcomment hn htokens hstop
  exact ⟨n, front, _, more, behind, ⟨hn, htokens, hplace, hcomment, hbad, hclean⟩, hstop⟩

/-- The functions of a source can be read back. -/
theorem readable_of_function {name : Token} (hmem : name ∈ contents source)
    (hname : name.type = .function) :
    name.Readable :=
  readable_of_mem_tokenize name (List.mem_filter.mp hmem).1 (by simp [Token.isPlain, hname])

/-- In both forms a plain argument among the tokens of a source is spelled, in the short form if its
numbers are apart. -/
theorem PseudoClass.WrittenAs.spelled {vs : List Value} (hp : p.WrittenAs vs)
    (hvs : vs <:+: (contents source).map .token) (hplain : p.PlainArgument source) (minify : Bool)
    (hapart : minify = true → p.NumbersApart) :
    p.Spelled minify := by
  obtain ⟨front, behind, hsource⟩ := hvs
  obtain ⟨ts, us₃, hcontents, hts, -⟩ := List.map_eq_append_iff.mp hsource.symm
  obtain ⟨us₁, us₂, rfl, -, hvs⟩ := List.map_eq_append_iff.mp hts
  cases hp with
  | plain => simp [PseudoClass.Spelled]
  | @function colon name closer argument _ hname hbalanced hcloser =>
      obtain ⟨_, us₂, rfl, ⟨⟩, hcall⟩ := List.map_eq_cons_iff.mp hvs
      obtain ⟨_, us₂, rfl, ⟨⟩, hinside⟩ := List.map_eq_cons_iff.mp hcall
      obtain ⟨argument, us₂, rfl, rfl, hend⟩ := List.map_eq_append_iff.mp hinside
      obtain ⟨_, us₂, rfl, ⟨⟩, hnil⟩ := List.map_eq_cons_iff.mp hend
      obtain rfl := List.map_eq_nil_iff.mp hnil
      rintro _ ⟨⟩
      obtain ⟨hcomment, hback, hbad⟩ := hplain _ rfl _ rfl
      have hplace : contents source = (us₁ ++ [colon]) ++ name :: (argument ++ closer :: us₃) := by
        simpa using hcontents
      rw [List.length_map] at hcomment
      obtain ⟨_, _, _, _, _, hrun, hstop⟩ := exists_enclosedRun hplace hname hcloser hcomment hback
        (List.forall_mem_map.mp hbad)
      have hmem : name ∈ contents source := by simp [hplace]
      refine ⟨argument, rfl, hname, hbalanced,
        hrun.writes hname (readable_of_function hmem hname) hstop minify fun hminify => ?_⟩
      have hnumbers := hapart hminify _ rfl
      rwa [tokensOf_tokens] at hnumbers
  | call =>
      obtain ⟨_, us₂, rfl, -, hcall⟩ := List.map_eq_cons_iff.mp hvs
      obtain ⟨_, _, _, hfalse, -⟩ := List.map_eq_cons_iff.mp hcall
      cases hfalse

end Plain

end Cascade
